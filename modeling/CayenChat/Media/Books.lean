import CayenChat.Media.Requests
import CayenChat.Lib.Machine

/-! # The cache keeps its books

Every call keeps the accounts and the limits, hands every image on, and begins
loads under new numbers only, so a load that has ended stays ended: what is
reported for it later changes no record.
-/

namespace CayenChat.Media

namespace PreviewCache

variable {T R K : Type*} [DecidableEq K] {c : PreviewCache T R K} {k : K} {r : Record T R}
  {running : List (Job K)} {job : Job K}

section Calls

theorem setEnabled_kept (h : c.Accounts running) (hb : c.Bounded) (enabled : Bool) :
    Kept c (c.setEnabled enabled) running 0 := by
  unfold setEnabled
  split
  · exact Kept.refl h hb
  · split
    · rename_i hen
      refine ⟨⟨h.nodup, h.queued, h.inFlight, h.bytes, h.loaded, h.serials, h.numbered, ?_⟩,
        ⟨hb.queue, hb.slots, hb.records, hb.budget⟩, (add_zero _).symm, fun _ hj => .inl hj, le_rfl,
        rfl⟩
      intro hoff
      change enabled = false at hoff
      rw [hen] at hoff
      cases hoff
    · refine ⟨⟨List.nodup_nil, ?_, h.inFlight, rfl, ?_, h.serials, h.numbered, fun _ => rfl⟩,
        ⟨Nat.zero_le _, hb.slots, Nat.zero_le _, fun _ => Nat.zero_le _⟩, ?_, ?_, le_rfl, rfl⟩
      · intro k
        constructor
        · intro hk
          cases hk
        · rintro ⟨r, hr, -⟩
          cases hr
      · intro k r serial confirmed hr
        cases hr
      · unfold held
        rw [Map.total_empty, zero_add, add_zero]
        exact add_comm ..
      · rintro job ⟨r, confirmed, hr, -⟩
        cases hr

theorem confirm_kept (h : c.Accounts running) (hb : c.Bounded) (confirmation : Confirmation K) :
    Kept c (c.confirm confirmation).1 running 0 := by
  unfold confirm
  split
  · exact Kept.refl h hb
  · split
    · rename_i r hk
      split
      · rename_i serial hs
        split
        · exact Kept.modify { r with state := .loading serial true } h hb hk (by rw [hs]; rfl) rfl (.refl _) rfl rfl rfl rfl rfl rfl rfl
        · exact Kept.refl h hb
      · exact Kept.refl h hb
    · exact Kept.refl h hb

theorem nextJob_kept (h : c.Accounts running) (hb : c.Bounded) :
    Kept c c.nextJob.1 (c.nextJob.2.toList ++ running) 0 ∧
      ∀ job ∈ c.nextJob.2, job.serial ≤ c.nextJob.1.jobs := by
  have hnone : Kept c c ((none : Option (Job K)).toList ++ running) 0 ∧
      ∀ job ∈ (none : Option (Job K)), job.serial ≤ c.jobs :=
    ⟨Kept.refl h hb, fun job hj => by cases hj⟩
  unfold nextJob
  split
  · exact hnone
  rename_i hslot
  rw [Bool.or_eq_true, not_or, Bool.not_eq_true', decide_eq_true_eq, not_le] at hslot
  split
  · exact hnone
  rename_i source hlast
  have hqueue : c.queue = c.queue.dropLast ++ [source] :=
    (List.dropLast_append_getLast? source hlast).symm
  have hmem : source ∈ c.queue := List.mem_of_getLast? hlast
  obtain ⟨r, hr, hs⟩ := h.queued_record hmem
  have hn := h.nodup
  rw [hqueue, List.nodup_append] at hn
  dsimp only
  rw [hr]
  dsimp only
  have hnum : ∀ job ∈ running, job.serial < c.jobs + 1 := fun job hj =>
    Nat.lt_succ_of_le (h.numbered job hj)
  refine ⟨⟨?_, ?_, ?_, ?_, Nat.le_succ _, rfl⟩, ?_⟩
  · refine h.update source ⟨.loading (c.jobs + 1) false, r.lastUsed, min (r.attempts + 1) 255,
      r.waiters⟩ rfl hn.1 ?_ ?_ ?_ rfl ?_ ?_ ?_ ?_ ?_
    · intro k'
      change k' ∈ c.queue.dropLast ↔ _
      split
      · subst k'
        simp only [State.isQueued, Bool.false_eq_true, iff_false]
        exact fun hin => hn.2.2 source hin source (List.mem_singleton.mpr rfl) rfl
      · conv_rhs => rw [hqueue, List.mem_append, List.mem_singleton]
        exact (or_iff_left ‹_›).symm
    · exact congrArg (· + 1) h.inFlight
    · unfold chargeOf
      rw [hr, Option.map_some, hs]
      rfl
    · intro serial confirmed hstate
      cases hstate
      exact List.mem_cons_self ..
    · exact fun job hj _ => List.mem_cons_of_mem _ hj
    · refine List.nodup_cons.mpr ⟨?_, h.serials⟩
      intro hin
      obtain ⟨job, hj, heq⟩ := List.mem_map.mp hin
      have := hnum job hj
      change job.serial = c.jobs + 1 at heq
      omega
    · intro job hj
      rcases List.mem_cons.mp hj with rfl | hj
      · exact le_rfl
      · exact (hnum job hj).le
    · simpa using hslot.1
  · refine ⟨?_, hslot.2, ?_, ?_⟩
    · change c.queue.dropLast.length ≤ _
      rw [List.length_dropLast]
      exact (Nat.sub_le _ _).trans hb.queue
    · change (c.records.insert source _).entries.length ≤ _
      rw [Map.length_insert_of_lookup hr]
      exact hb.records
    · intro hover
      have ht := Map.total_replace (f := fun r : Record T R => if r.state.isReady then 1 else 0)
        (w := ⟨.loading (c.jobs + 1) false, r.lastUsed, min (r.attempts + 1) 255, r.waiters⟩) hr
      rw [hs] at ht
      exact (add_left_cancel ht).le.trans (hb.budget hover)
  · have ht := Map.total_replace (f := fun r : Record T R => r.state.image)
      (w := ⟨.loading (c.jobs + 1) false, r.lastUsed, min (r.attempts + 1) 255, r.waiters⟩) hr
    rw [hs] at ht
    unfold held
    dsimp only
    rw [add_left_cancel ht, add_zero]
  · rintro job ⟨r', confirmed, hr', hstate⟩
    change (c.records.insert source _).lookup job.source = some r' at hr'
    rw [Map.lookup_insert] at hr'
    split at hr'
    · cases hr'
      right
      have := (State.loading.inj hstate).1
      omega
    · exact .inl ⟨r', confirmed, hr', hstate⟩
  · intro job hj
    cases hj
    exact le_rfl

theorem loads_eq_some {x : Record T R × Bool} (h : c.loads job = some x) : c.enabled = true ∧
    job.generation = c.generation ∧ c.records.lookup job.source = some x.1 ∧
      x.1.state = .loading job.serial x.2 := by
  unfold loads at h
  split at h
  · rename_i hon
    rw [Bool.and_eq_true, decide_eq_true_eq] at hon
    obtain ⟨r', hr', h⟩ := Option.bind_eq_some_iff.mp h
    split at h
    · split at h
      · cases h
        subst_vars
        exact ⟨hon.1, hon.2, hr', ‹_›⟩
      · cases h
    · cases h
  · cases h

theorem loads_eq_none (h : c.loads job = none) (hon : c.enabled = true)
    (hg : job.generation = c.generation) : ¬ c.Loads job := by
  rintro ⟨r, confirmed, hr, hs⟩
  unfold loads at h
  rw [if_pos (by simp [hon, hg]), hr, Option.bind_some, hs] at h
  dsimp only at h
  rw [if_pos rfl] at h
  cases h

def brought (c : PreviewCache T R K) (job : Job K) (result : Except LoadError (T × ℕ)) :
    Multiset T :=
  match result with
  | .ok (value, _) => if (c.loads job).isSome then {value} else 0
  | .error _ => 0

theorem finish_stale (h : c.loads job = none) (result : Except LoadError (T × ℕ)) (now : Instant) :
    c.finish job result now = ({ c with
        inFlight := c.inFlight - 1
        stats := { c.stats with stale := c.stats.stale + 1 } }, {}) ∧ c.brought job result = 0 := by
  have h' : ({ c with inFlight := c.inFlight - 1 } : PreviewCache T R K).loads job = none := h
  constructor
  · unfold finish
    dsimp only
    rw [h']
  · unfold brought
    rw [h]
    cases result <;> rfl

def outcome (result : Except LoadError (T × ℕ)) (now : Instant) : State T :=
  match result with
  | .ok (value, bytes) => .ready value bytes
  | .error error => .failed now error.isTransient

def settle (c : PreviewCache T R K) (job : Job K) (r : Record T R)
    (result : Except LoadError (T × ℕ)) (now : Instant) : PreviewCache T R K :=
  { c with
    inFlight := c.inFlight - 1
    records := c.records.insert job.source { r with state := outcome result now, waiters := [] }
    readyBytes := c.readyBytes + (outcome result now).charge }

theorem finish_applied {x : Record T R × Bool} (h : c.loads job = some x)
    (result : Except LoadError (T × ℕ)) (now : Instant) :
    ∃ stats, (((outcome result now).isReady = false ∧ (outcome result now).charge = 0) ∧
      (c.finish job result now).1 = { c.settle job x.1 result now with stats }) ∨
        (c.finish job result now).1 =
          ({ c.settle job x.1 result now with stats } : PreviewCache T R K).evict
            (some job.source) := by
  have h' : ({ c with inFlight := c.inFlight - 1 } : PreviewCache T R K).loads job =
      some x := h
  unfold finish
  dsimp only
  rw [h']
  cases result with
  | ok value => exact ⟨_, .inr rfl⟩
  | error error => exact ⟨_, .inl ⟨⟨rfl, rfl⟩, rfl⟩⟩

theorem brought_eq {x : Record T R × Bool} (h : c.loads job = some x)
    (result : Except LoadError (T × ℕ)) (now : Instant) :
    c.brought job result = (outcome result now).image ∧
      (outcome result now).isQueued = false ∧ (outcome result now).isLoading = false := by
  unfold brought
  rw [h]
  cases result <;> exact ⟨rfl, rfl, rfl⟩

theorem Accounts.settle (h : c.Accounts running) (hj : job ∈ running) {x : Record T R × Bool}
    (hl : c.loads job = some x) (result : Except LoadError (T × ℕ)) (now : Instant) :
    (c.settle job x.1 result now).Accounts (running.erase job) := by
  obtain ⟨hon, hg, hr, hs⟩ := loads_eq_some hl
  obtain ⟨-, hq, hload⟩ := brought_eq hl result now
  have hno : job.source ∉ c.queue := by
    intro hmem
    obtain ⟨r', hr', hs'⟩ := h.queued_record hmem
    rw [hr] at hr'
    cases hr'
    rw [hs] at hs'
    cases hs'
  refine h.update job.source ⟨outcome result now, x.1.lastUsed, x.1.attempts, []⟩ rfl h.nodup ?_ ?_ ?_
    rfl ?_ ?_ ?_ ?_ hon
  · intro k'
    rw [hq]
    split
    · subst k'
      exact iff_of_false hno Bool.false_ne_true
    · rfl
  · rw [List.length_erase_of_mem hj, ← h.inFlight]
    rfl
  · unfold chargeOf
    rw [hr, Option.map_some, hs]
    rfl
  · intro serial confirmed' hstate
    rw [show (outcome result now : State T) = .loading serial confirmed' from hstate] at hload
    cases hload
  · intro job' hj' hne
    exact (List.mem_erase_of_ne fun heq => hne (congrArg Job.source heq)).mpr hj'
  · exact (List.erase_sublist.map _).nodup h.serials
  · exact fun job' hj' => h.numbered job' (List.mem_of_mem_erase hj')

theorem finish_kept (h : c.Accounts running) (hb : c.Bounded)
    (hl : c.limits.maxQueued + c.limits.maxInFlight + 1 ≤ c.limits.maxRecords)
    (hj : job ∈ running) (result : Except LoadError (T × ℕ)) (now : Instant) :
    Kept c (c.finish job result now).1 (running.erase job) (c.brought job result) := by
  have hfree : c.inFlight - 1 ≤ c.limits.maxInFlight := (Nat.sub_le _ _).trans hb.slots
  cases hload : c.loads job with
  | none =>
    obtain ⟨hf, hbr⟩ := finish_stale hload result now
    rw [hf, hbr]
    refine ⟨⟨h.nodup, h.queued, ?_, h.bytes, ?_, (List.erase_sublist.map _).nodup h.serials,
      fun job' hj' => h.numbered job' (List.mem_of_mem_erase hj'), h.off⟩,
      ⟨hb.queue, hfree, hb.records, hb.budget⟩, (add_zero _).symm, fun _ hl => .inl hl, le_rfl, rfl⟩
    · rw [List.length_erase_of_mem hj, ← h.inFlight]
    · intro k r serial confirmed hr hs
      refine (List.mem_erase_of_ne ?_).mpr (h.loaded k r serial confirmed hr hs)
      rintro rfl
      exact loads_eq_none hload (h.on hr) rfl ⟨r, confirmed, hr, hs⟩
  | some rc =>
    obtain ⟨hon, hg, hr, hs⟩ := loads_eq_some hload
    obtain ⟨himage, hq, hnl⟩ := brought_eq hload result now
    obtain ⟨stats, hfin⟩ := finish_applied hload result now
    have ha := (h.settle hj hload result now).stats stats
    set c' : PreviewCache T R K := { c.settle job rc.1 result now with stats }
    have hheld : c'.held = c.held + c.brought job result := by
      have ht := Map.total_replace (f := fun r : Record T R => r.state.image)
        (w := ⟨outcome result now, rc.1.lastUsed, rc.1.attempts, []⟩) hr
      rw [hs] at ht
      have ht' : Map.total (fun r : Record T R => r.state.image) c'.records =
          (outcome result now).image + Map.total (fun r => r.state.image) c.records :=
        (zero_add _).symm.trans ht
      unfold held
      rw [ht', himage, add_assoc, add_comm]
      rfl
    have hloads : ∀ job', c'.Loads job' → c.Loads job' := by
      rintro job' ⟨r', confirmed', hr', hstate⟩
      change (c.records.insert job.source _).lookup job'.source = some r' at hr'
      rw [Map.lookup_insert] at hr'
      split at hr'
      · cases hr'
        rw [show (outcome result now : State T) = _ from hstate] at hnl
        cases hnl
      · exact ⟨r', confirmed', hr', hstate⟩
    rcases hfin with ⟨⟨hready, hcharge⟩, hfin⟩ | hfin
    · rw [hfin]
      refine ⟨ha, hb.mono rfl le_rfl (Nat.sub_le _ _) ?_ ?_ ?_, hheld,
        fun job' hl' => .inl (hloads job' hl'), le_rfl, rfl⟩
      · exact (Map.length_insert_of_lookup hr).le
      · change c.readyBytes + _ ≤ _
        rw [hcharge]
        exact le_rfl
      · have ht := Map.total_replace (f := fun r : Record T R => if r.state.isReady then 1 else 0)
          (w := ⟨outcome result now, rc.1.lastUsed, rc.1.attempts, []⟩) hr
        dsimp only at ht
        rw [hs, hready] at ht
        exact (add_left_cancel ht).le
    · rw [hfin]
      refine ⟨evict_accounts ha _, evict_bounded ha _ hl hb.queue hfree, ?_, ?_, ?_, ?_⟩
      · rw [evict_held, hheld]
      · exact fun job' hl' => .inl (hloads job' (evict_loads hl'))
      · rw [(evict_frame _ _).2.2.2]
        rfl
      · rw [(evict_frame _ _).2.2.1]
        rfl

end Calls

section Forgetting

theorem Kept.trans {c₁ c₂ : PreviewCache T R K} {running' : List (Job K)} {g g' : Multiset T}
    (h : Kept c c₁ running g) (h' : Kept c₁ c₂ running' g') : Kept c c₂ running' (g + g') := by
  refine ⟨h'.accounts, h'.bounded, ?_, ?_, h.jobs.trans h'.jobs, h'.limits.trans h.limits⟩
  · rw [h'.held, h.held, add_assoc]
  · intro job hj
    rcases h'.loads job hj with hj | hlt
    · exact h.loads job hj
    · exact .inr (h.jobs.trans_lt hlt)

theorem Kept.foldl {f : PreviewCache T R K → K → PreviewCache T R K}
    {P : PreviewCache T R K → K → Prop}
    (hf : ∀ c k, c.Accounts running → c.Bounded → P c k → Kept c (f c k) running 0)
    (hp : ∀ c k k', P c k' → P (f c k) k') (ks : List K) (h : c.Accounts running) (hb : c.Bounded)
    (hks : ∀ k ∈ ks, P c k) : Kept c (ks.foldl f c) running 0 := by
  induction ks generalizing c with
  | nil => exact Kept.refl h hb
  | cons k ks ih =>
    have hk := hf c k h hb (hks k (List.mem_cons_self ..))
    have := hk.trans (ih hk.accounts hk.bounded fun k' hk' =>
      hp c k k' (hks k' (List.mem_cons_of_mem _ hk')))
    rwa [add_zero] at this

theorem filter_queue (hk : k ∉ c.queue) : c.queue.filter (· ≠ k) = c.queue := by
  refine List.filter_eq_self.mpr fun k' hk' => ?_
  rw [decide_eq_true_eq]
  rintro rfl
  exact hk hk'

theorem mem_filter_queue (k' : K) : k' ∈ c.queue.filter (· ≠ k) ↔ k' ≠ k ∧ k' ∈ c.queue := by
  rw [List.mem_filter, decide_eq_true_eq, and_comm]

theorem dropQueued_kept (h : c.Accounts running) (hb : c.Bounded)
    (hk : ∀ r, c.records.lookup k = some r → r.state.isQueued = true) :
    Kept c (c.dropQueued k) running 0 := by
  cases hr : c.records.lookup k with
  | none =>
    have hno : k ∉ c.queue := by
      intro hmem
      obtain ⟨r, hr', -⟩ := (h.queued k).mp hmem
      rw [hr] at hr'
      cases hr'
    have heq : c.dropQueued k = c := by
      unfold dropQueued
      rw [Map.erase_of_lookup hr, filter_queue hno]
    rw [heq]
    exact Kept.refl h hb
  | some r =>
    have hmem := (h.queued k).mpr ⟨r, hr, hk r hr⟩
    obtain ⟨ha, hheld, hloads⟩ := Accounts.drop (c.dropQueued k) h hmem rfl
      (h.nodup.filter _) mem_filter_queue rfl rfl rfl rfl rfl rfl
    refine ⟨ha, hb.mono rfl (List.length_filter_le ..) le_rfl Map.length_erase_le le_rfl
      Map.count_erase_le, hheld.trans (add_zero _).symm, fun job hj => .inl (hloads job hj), le_rfl,
      rfl⟩

theorem retainWaiters_kept (h : c.Accounts running) (hb : c.Bounded) (keep : R → Bool) :
    Kept c (c.retainWaiters keep) running 0 := by
  set f : Record T R → Record T R := fun r => { r with waiters := r.waiters.filter keep }
  set c₁ : PreviewCache T R K := { c with records := Map.mapValues f c.records } with hc₁
  have hlook : ∀ k, c₁.records.lookup k = (c.records.lookup k).map f := fun k =>
    Map.lookup_mapValues
  have hkept : Kept c c₁ running 0 := by
    refine ⟨⟨h.nodup, ?_, h.inFlight, ?_, ?_, h.serials, h.numbered, ?_⟩, hb.mono rfl le_rfl le_rfl
      ?_ le_rfl ?_, ?_, ?_, le_rfl, rfl⟩
    · intro k
      change k ∈ c.queue ↔ _
      rw [h.queued, hlook]
      simp only [Option.map_eq_some_iff, exists_exists_and_eq_and]
      rfl
    · have ht := Map.total_mapValues (f := fun r : Record T R => r.state.charge) (g := f)
        (m := c.records)
      exact h.bytes.trans ht.symm
    · intro k r serial confirmed hr hs
      rw [hlook] at hr
      obtain ⟨r₀, hr₀, rfl⟩ := Option.map_eq_some_iff.mp hr
      exact h.loaded k r₀ serial confirmed hr₀ hs
    · intro hoff
      change Map.mapValues f c.records = ∅
      rw [h.off hoff]
      rfl
    · change (c.records.entries.map _).length ≤ _
      rw [List.length_map]
    · exact (Map.total_mapValues (f := fun r : Record T R => if r.state.isReady then 1 else 0)).le
    · rw [add_zero]
      exact congrArg (· + c.released) (Map.total_mapValues
        (f := fun r : Record T R => r.state.image))
    · rintro job ⟨r, confirmed, hr, hs⟩
      rw [hlook] at hr
      obtain ⟨r₀, hr₀, rfl⟩ := Option.map_eq_some_iff.mp hr
      exact .inl ⟨r₀, confirmed, hr₀, hs⟩
  have hfold := Kept.foldl (f := dropQueued)
    (P := fun c k => ∀ r, c.records.lookup k = some r → r.state.isQueued = true)
    (fun c k h hb hk => dropQueued_kept h hb hk) ?_
    ((c₁.records.entries.filter fun e => e.2.waiters.isEmpty && e.2.state.isQueued).map Sigma.fst)
    hkept.accounts hkept.bounded ?_
  · have := hkept.trans hfold
    rw [add_zero] at this
    exact this
  · intro c k k' hk r hr
    change (c.records.erase k).lookup k' = some r at hr
    rw [Map.lookup_erase] at hr
    split at hr
    · cases hr
    · exact hk r hr
  · intro k hk r hr
    obtain ⟨e, he, rfl⟩ := List.mem_map.mp hk
    obtain ⟨hmem, hp⟩ := List.mem_filter.mp he
    rw [AList.mem_lookup_iff.mpr hmem] at hr
    cases hr
    exact ((Bool.and_eq_true _ _).mp hp).2

theorem forgetOne_kept (h : c.Accounts running) (hb : c.Bounded) (k : K) :
    Kept c (c.forgetOne k) running 0 := by
  cases hr : c.records.lookup k with
  | none =>
    have hno : k ∉ c.queue := by
      intro hmem
      obtain ⟨r, hr', -⟩ := (h.queued k).mp hmem
      rw [hr] at hr'
      cases hr'
    have heq : c.forgetOne k = { c with cancelled := c.cancelled ∪ ∅ } := by
      unfold forgetOne remove
      rw [hr, filter_queue hno]
      rfl
    rw [heq]
    exact ⟨⟨h.nodup, h.queued, h.inFlight, h.bytes, h.loaded, h.serials, h.numbered, h.off⟩,
      ⟨hb.queue, hb.slots, hb.records, hb.budget⟩, (add_zero _).symm, fun _ hj => .inl hj, le_rfl,
      rfl⟩
  | some r =>
    have heq : c.forgetOne k = { c with
        records := c.records.erase k
        readyBytes := c.readyBytes - r.state.charge
        released := c.released + r.state.image
        queue := c.queue.filter (· ≠ k)
        cancelled := c.cancelled ∪ ((c.records.lookup k).map (·.state.flag)).getD ∅ } := by
      unfold forgetOne
      rw [remove_eq hr]
    have hbytes := chargeOf_eq c k
    have hc : c.chargeOf k = r.state.charge := by
      unfold chargeOf
      rw [hr]
      rfl
    have hb' := h.bytes
    rw [heq]
    refine ⟨h.erase k rfl (h.nodup.filter _) mem_filter_queue rfl ?_ rfl rfl rfl,
      hb.mono rfl (List.length_filter_le ..) le_rfl Map.length_erase_le (Nat.sub_le _ _)
        Map.count_erase_le, ?_, ?_, le_rfl, rfl⟩
    · change c.readyBytes - r.state.charge + _ = _
      omega
    · rw [add_zero, ← remove_held c k, remove_eq hr]
      rfl
    · rintro job ⟨r', confirmed, hr', hs⟩
      change (c.records.erase k).lookup job.source = some r' at hr'
      rw [Map.lookup_erase] at hr'
      split at hr'
      · cases hr'
      · exact .inl ⟨r', confirmed, hr', hs⟩

theorem forget_kept (h : c.Accounts running) (hb : c.Bounded) (gone : K → Bool) :
    Kept c (c.forget gone) running 0 :=
  Kept.foldl (P := fun _ _ => True) (fun _ k h hb _ => forgetOne_kept h hb k)
    (fun _ _ _ _ => trivial) _ h hb fun _ _ => trivial

theorem forgetOne_lookup (c : PreviewCache T R K) (k k' : K) :
    (c.forgetOne k).records.lookup k' = if k' = k then none else c.records.lookup k' := by
  have hrec : (c.forgetOne k).records = c.records.erase k := by
    change (c.remove k).records = _
    cases hr : c.records.lookup k with
    | none =>
      unfold remove
      rw [hr, Map.erase_of_lookup hr]
    | some r => rw [remove_eq hr]
  rw [hrec, Map.lookup_erase]

theorem forget_lookup {gone : K → Bool} (h : gone k = true) :
    (c.forget gone).records.lookup k = none := by
  have hfold : ∀ (ks : List K) (c : PreviewCache T R K), k ∈ ks ∨ c.records.lookup k = none →
      (ks.foldl forgetOne c).records.lookup k = none := by
    intro ks
    induction ks with
    | nil => exact fun c hc => hc.resolve_left List.not_mem_nil
    | cons a ks ih =>
      intro c hc
      apply ih
      by_cases ha : k = a
      · right
        rw [forgetOne_lookup, if_pos ha]
      · rcases hc with hc | hc
        · exact .inl ((List.mem_cons.mp hc).resolve_left ha)
        · right
          rw [forgetOne_lookup, if_neg ha, hc]
  apply hfold
  by_cases hk : k ∈ c.records.keys
  · exact .inl (List.mem_filter.mpr ⟨hk, h⟩)
  · exact .inr (AList.lookup_eq_none.mpr hk)

theorem setEnabled_lookup (h : c.Accounts running) (k : K) :
    (c.setEnabled false).records.lookup k = none := by
  unfold setEnabled
  split
  · rename_i hoff
    rw [h.off hoff.symm]
    rfl
  · rfl

end Forgetting

theorem ended_spec (h : ¬ c.Loads job) (result : Except LoadError (T × ℕ)) (now : Instant) :
    (c.finish job result now).1.records = c.records ∧ (c.finish job result now).2 = {} ∧
      c.confirm job.confirmation = (c, []) := by
  have hload : c.loads job = none := by
    cases hl : c.loads job with
    | none => rfl
    | some rc =>
      obtain ⟨-, -, hr, hs⟩ := loads_eq_some hl
      exact absurd ⟨rc.1, rc.2, hr, hs⟩ h
  rw [(finish_stale hload result now).1]
  refine ⟨rfl, rfl, ?_⟩
  unfold confirm
  split
  · rfl
  · split
    · split
      · split
        · rename_i r hr _ serial hs hserial
          exact absurd ⟨r, false, hr, by rw [hs, hserial]; rfl⟩ h
        · rfl
      · rfl
    · rfl

end PreviewCache

/-- A call of the cache. -/
inductive CacheCall (T R K : Type*)
  | setEnabled (enabled : Bool)
  | request (source : K) (waiter : R) (now : Instant)
  | nextJob
  | confirm (confirmation : Confirmation K)
  | finish (job : Job K) (result : Except LoadError (T × ℕ)) (now : Instant)
  | retainWaiters (keep : R → Bool)
  | forget (gone : K → Bool)
  | takeReleased

/-- A cache with the jobs it handed out, those of them that run, the images that became ready and
those that were given out. -/
structure Session (T R K : Type*) where
  cache : PreviewCache T R K
  handed : List (Job K) := []
  running : List (Job K) := []
  made : Multiset T := 0
  given : Multiset T := 0

namespace Session

variable {T R K : Type*} [DecidableEq K] {s : Session T R K} {i : CacheCall T R K}

def Legal (s : Session T R K) : CacheCall T R K → Prop
  | .finish job _ _ => job ∈ s.running
  | _ => True

/-- The books of a cache. -/
structure Books (s : Session T R K) : Prop where
  accounts : s.cache.Accounts s.running
  bounded : s.cache.Bounded
  conserved : s.made = s.cache.held + s.given
  numbered : ∀ job ∈ s.handed, job.serial ≤ s.cache.jobs

theorem Books.kept {c' : PreviewCache T R K} {running : List (Job K)} {g : Multiset T}
    (h : s.Books) (hk : PreviewCache.Kept s.cache c' running g) :
    Books { s with cache := c', running, made := s.made + g } := by
  refine ⟨hk.accounts, hk.bounded, ?_, fun job hj => (h.numbered job hj).trans hk.jobs⟩
  change s.made + g = c'.held + s.given
  rw [h.conserved, hk.held, add_right_comm]

theorem Books.single (h : s.Books) (hover : s.cache.limits.budgetBytes < s.cache.readyBytes) :
    Map.count (fun r : Record T R => r.state.isReady) s.cache.records = 1 := by
  refine le_antisymm (h.bounded.budget hover) ?_
  by_contra hno
  have hzero : Map.count (fun r : Record T R => r.state.isReady) s.cache.records = 0 := by omega
  have hnil := List.length_eq_zero_iff.mp (Map.count_eq.symm.trans hzero)
  have hcharge : Map.total (fun r : Record T R => r.state.charge) s.cache.records =
      Map.total (fun _ => 0) s.cache.records := by
    refine Map.total_congr fun k r hr => ?_
    have hready : r.state.isReady = false := by
      by_contra hready
      rw [Bool.not_eq_false] at hready
      have hmem : Sigma.mk k r ∈ s.cache.records.entries.filter fun e => e.2.state.isReady :=
        List.mem_filter.mpr ⟨AList.mem_lookup_iff.mp hr, hready⟩
      rw [hnil] at hmem
      cases hmem
    cases hs : r.state with
    | ready value bytes => rw [hs] at hready; cases hready
    | queued => rfl
    | loading serial confirmed => rfl
    | failed since transient => rfl
  have hbytes := h.accounts.bytes
  rw [hcharge] at hbytes
  have : Map.total (fun _ : Record T R => 0) s.cache.records = 0 := by
    unfold Map.total
    rw [List.map_const', List.sum_replicate, smul_zero]
  omega

def new (limits : CacheLimits) : Session T R K := { cache := { limits } }

theorem new_books (limits : CacheLimits) : (new limits : Session T R K).Books := by
  refine ⟨⟨List.nodup_nil, ?_, rfl, rfl, ?_, List.nodup_nil, ?_, fun _ => rfl⟩,
    ⟨Nat.zero_le _, Nat.zero_le _, Nat.zero_le _, fun _ => Nat.zero_le _⟩, rfl, ?_⟩
  · intro k
    constructor
    · intro hk
      cases hk
    · rintro ⟨r, hr, -⟩
      cases hr
  · intro k r serial confirmed hr
    cases hr
  · intro job hj
    cases hj
  · intro job hj
    cases hj

variable [BEq R]

def step (s : Session T R K) : CacheCall T R K → Session T R K
  | .setEnabled enabled => { s with cache := s.cache.setEnabled enabled }
  | .request source waiter now => { s with cache := (s.cache.request source waiter now).1 }
  | .nextJob =>
    { s with
      cache := s.cache.nextJob.1
      handed := s.cache.nextJob.2.toList ++ s.handed
      running := s.cache.nextJob.2.toList ++ s.running }
  | .confirm confirmation => { s with cache := (s.cache.confirm confirmation).1 }
  | .finish job result now =>
    { s with
      cache := (s.cache.finish job result now).1
      running := s.running.erase job
      made := s.made + s.cache.brought job result }
  | .retainWaiters keep => { s with cache := s.cache.retainWaiters keep }
  | .forget gone => { s with cache := s.cache.forget gone }
  | .takeReleased =>
    { s with cache := s.cache.takeReleased.1, given := s.given + s.cache.takeReleased.2 }

theorem step_books (h : s.Books) (hi : s.Legal i)
    (hl : s.cache.limits.maxQueued + s.cache.limits.maxInFlight + 1 ≤ s.cache.limits.maxRecords) :
    (s.step i).Books ∧ (s.step i).cache.limits = s.cache.limits ∧
      ∀ job ∈ s.handed, (s.step i).cache.Loads job → s.cache.Loads job := by
  have hold : ∀ {c' : PreviewCache T R K}, (∀ job, c'.Loads job → s.cache.Loads job ∨
      s.cache.jobs < job.serial) → ∀ job ∈ s.handed, c'.Loads job → s.cache.Loads job :=
    fun hc job hj hload => (hc job hload).resolve_right (not_lt.mpr (h.numbered job hj))
  have hplain : ∀ {c' : PreviewCache T R K}, PreviewCache.Kept s.cache c' s.running 0 →
      Books { s with cache := c' } ∧ c'.limits = s.cache.limits ∧
        ∀ job ∈ s.handed, c'.Loads job → s.cache.Loads job := by
    intro c' hk
    have hb := h.kept hk
    rw [add_zero] at hb
    exact ⟨hb, hk.limits, hold hk.loads⟩
  cases i with
  | setEnabled enabled => exact hplain (PreviewCache.setEnabled_kept h.accounts h.bounded enabled)
  | request source waiter now => exact hplain (PreviewCache.request_kept h.accounts h.bounded hl)
  | confirm confirmation => exact hplain (PreviewCache.confirm_kept h.accounts h.bounded confirmation)
  | retainWaiters keep => exact hplain (PreviewCache.retainWaiters_kept h.accounts h.bounded keep)
  | forget gone => exact hplain (PreviewCache.forget_kept h.accounts h.bounded gone)
  | nextJob =>
    obtain ⟨hk, hnum⟩ := PreviewCache.nextJob_kept h.accounts h.bounded
    have hb := h.kept hk
    rw [add_zero] at hb
    refine ⟨⟨hb.accounts, hb.bounded, hb.conserved, ?_⟩, hk.limits, hold hk.loads⟩
    intro job hj
    rcases List.mem_append.mp hj with hj | hj
    · exact hnum job (Option.mem_toList.mp hj)
    · exact hb.numbered job hj
  | finish job result now =>
    have hk := PreviewCache.finish_kept h.accounts h.bounded hl hi result now
    exact ⟨h.kept hk, hk.limits, hold hk.loads⟩
  | takeReleased =>
    have ha := h.accounts
    have hb := h.bounded
    refine ⟨⟨⟨ha.nodup, ha.queued, ha.inFlight, ha.bytes, ha.loaded, ha.serials, ha.numbered,
      ha.off⟩, ⟨hb.queue, hb.slots, hb.records, hb.budget⟩, ?_, h.numbered⟩, rfl,
      fun job _ hload => hload⟩
    have hc := h.conserved
    unfold PreviewCache.held at hc
    change s.made = Map.total _ s.cache.records + 0 + (s.given + s.cache.released)
    rw [hc, add_zero, add_assoc, add_comm s.cache.released]

variable {limits : CacheLimits} {is : List (CacheCall T R K)}

theorem step_handed {job : Job K} (hj : job ∈ s.handed) : job ∈ (s.step i).handed := by
  cases i with
  | nextJob => exact List.mem_append_right _ hj
  | _ => exact hj

theorem run_books (hl : limits.maxQueued + limits.maxInFlight + 1 ≤ limits.maxRecords)
    (hb : s.Books) (hs : s.cache.limits = limits) (h : Machine.Along Legal step s is) :
    (Machine.exec step s is).Books ∧ (Machine.exec step s is).cache.limits = limits ∧
      ∀ job ∈ s.handed, (Machine.exec step s is).cache.Loads job → s.cache.Loads job := by
  induction is generalizing s with
  | nil => exact ⟨hb, hs, fun _ _ hload => hload⟩
  | cons i is ih =>
    obtain ⟨hb', hs', hload⟩ := step_books hb h.1 (hs.symm ▸ hl)
    obtain ⟨hbr, hsr, hloads⟩ := ih hb' (hs'.trans hs) h.2
    exact ⟨hbr, hsr, fun job hj hrun => hload job hj (hloads job (step_handed hj) hrun)⟩

/-- In every run that finishes a job once at most, the queue, the slots, the limits, the bytes and the
images agree with the records, and what is reported for a load that has ended, because its record
was forgotten, dropped, turned off or requested anew, changes no record and tells no row. -/
theorem books_kept (limits : CacheLimits) (is : List (CacheCall T R K))
    (hl : limits.maxQueued + limits.maxInFlight + 1 ≤ limits.maxRecords)
    (h : Machine.Along Legal step (new limits : Session T R K) is) :
    let s := Machine.exec step (new limits : Session T R K) is
    let c := s.cache
    (c.queue.Nodup ∧ (∀ k, k ∈ c.queue ↔ ∃ r, c.records.lookup k = some r ∧ r.state = .queued) ∧
      c.queue.length ≤ limits.maxQueued) ∧
    (c.inFlight = s.running.length ∧ c.inFlight ≤ limits.maxInFlight) ∧
    c.records.entries.length ≤ limits.maxRecords ∧
    (c.readyBytes = Map.total (fun r => r.state.charge) c.records ∧
      (limits.budgetBytes < c.readyBytes → Map.count (fun r => r.state.isReady) c.records = 1)) ∧
    s.made = Map.total (fun r => r.state.image) c.records + c.released + s.given ∧
    (∀ job : Job K, ¬ (c.setEnabled false).Loads job ∧
      ∀ gone : K → Bool, gone job.source = true → ¬ (c.forget gone).Loads job) ∧
    ∀ before after, is = before ++ after → ∀ job ∈ (Machine.exec step (new limits) before).handed,
      ¬ (Machine.exec step (new limits) before).cache.Loads job → ∀ result now,
        (c.finish job result now).1.records = c.records ∧ (c.finish job result now).2 = {} ∧
          c.confirm job.confirmation = (c, []) := by
  obtain ⟨hb, hlim, -⟩ := run_books hl (new_books limits) rfl h
  refine ⟨⟨hb.accounts.nodup, fun k => ⟨hb.accounts.queued_record, ?_⟩, ?_⟩,
    ⟨hb.accounts.inFlight, ?_⟩, ?_, ⟨hb.accounts.bytes, ?_⟩, hb.conserved, fun job => ⟨?_, ?_⟩, ?_⟩
  · rintro ⟨r, hr, hs⟩
    exact (hb.accounts.queued k).mpr ⟨r, hr, by rw [hs]; rfl⟩
  · have hle := hb.bounded.queue
    rwa [hlim] at hle
  · have hle := hb.bounded.slots
    rwa [hlim] at hle
  · have hle := hb.bounded.records
    rwa [hlim] at hle
  · intro hover
    exact hb.single (hlim.symm ▸ hover)
  · rintro ⟨r, confirmed, hr, -⟩
    rw [PreviewCache.setEnabled_lookup hb.accounts] at hr
    cases hr
  · rintro gone hgone ⟨r, confirmed, hr, -⟩
    rw [PreviewCache.forget_lookup hgone] at hr
    cases hr
  · rintro before after rfl job hj hended result now
    apply PreviewCache.ended_spec
    rw [Machine.exec_append]
    obtain ⟨hbefore, hafter⟩ := Machine.along_append.mp h
    obtain ⟨hb₁, hlim₁, -⟩ := run_books hl (new_books limits) rfl hbefore
    exact fun hload => hended ((run_books hl hb₁ hlim₁ hafter).2.2 job hj hload)

/-- An image of one row, loaded and cached. -/
theorem books_kept_image : (Machine.exec step (new {} : Session ℕ ℕ ℕ) [.setEnabled true, .request 1 1 0,
    .nextJob, .finish ⟨1, 0, 1⟩ (.ok (7, 10)) 0]).made = {7} := by
  have h := books_kept (T := ℕ) (R := ℕ) {} [.setEnabled true, .request 1 1 0, .nextJob,
    .finish (⟨1, 0, 1⟩ : Job ℕ) (.ok (7, 10)) 0] (by decide)
    ⟨trivial, trivial, trivial, by change (⟨1, 0, 1⟩ : Job ℕ) ∈ Session.running _; decide +kernel,
      trivial⟩
  exact h.2.2.2.2.1.trans (by decide +kernel)

end Session

end CayenChat.Media
