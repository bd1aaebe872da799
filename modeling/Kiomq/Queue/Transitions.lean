import Kiomq.Stores.Holdings
import Kiomq.Worker.ProcessJob

/-!
# What the queue operations do to the places of a job

One specification for each queue operation that moves a job: fetching it, finishing
it, and what follows a finished job. A caller reasons with these and does not unfold
the operations. All of them are stated for a queue whose cached pause flag is off.
-/

namespace Kiomq

open Foundations

variable {D R P : Type}

namespace InMemoryStore

/-- The job has moved from the shelves to the active list, and its record says so. -/
structure Activated (s t : InMemoryStore D R P) (id : ℕ) : Prop where
  shelved : ∀ j, t.shelved j + (if j = id then 1 else 0) = s.shelved j
  active : ∀ j, t.activeCount j = s.activeCount j + if j = id then 1 else 0
  record : t.recordView =
    Function.update s.recordView id ((s.recordView id).map fun r => { r with working := true })
  lastId : t.idCounter = s.idCounter
  cached : t.storedMetrics.isPaused = s.storedMetrics.isPaused

/-- The job with record `r` has left the collection of its state; its record is `r'`. -/
structure Finished (s t : InMemoryStore D R P) (id : ℕ) (r r' : Job D R P) : Prop where
  shelved : ∀ j, t.shelved j ≤ s.shelved j
  active_other : ∀ j, j ≠ id → t.activeCount j = s.activeCount j
  active_self : t.activeCount id ≤ s.activeCount id
  active_zero : r.state = .active → t.activeCount id = 0
  record : t.recordView = Function.update s.recordView id (some r'.view)
  spent : r'.attemptsMade = r.attemptsMade + 1
  opts : r'.opts = r.opts
  selfId : r'.id = r.id
  lastId : t.idCounter = s.idCounter
  cached : t.storedMetrics.isPaused = s.storedMetrics.isPaused

/-- At most one copy of the job has been put back on a shelf. -/
structure Reshelved (s t : InMemoryStore D R P) (id : ℕ) : Prop where
  shelved : ∀ j, t.shelved j ≤ s.shelved j + if j = id then 1 else 0
  active : t.activeCount = s.activeCount
  record : t.recordView = s.recordView
  lastId : t.idCounter = s.idCounter
  cached : t.storedMetrics.isPaused = s.storedMetrics.isPaused

/-- Nothing has changed, except that records may have been deleted. -/
structure Pruned (s t : InMemoryStore D R P) : Prop where
  shelved : t.shelved = s.shelved
  active : t.activeCount = s.activeCount
  record : ∀ j, t.recordView j = s.recordView j ∨ t.recordView j = none
  lastId : t.idCounter = s.idCounter
  cached : t.storedMetrics.isPaused = s.storedMetrics.isPaused

theorem Agree.pruned {s t : InMemoryStore D R P} (h : Agree s t) : Pruned s t :=
  ⟨h.shelved, h.active, fun j => Or.inl (congrFun h.record j), h.lastId, h.cached⟩

theorem Reshelved.of_agree {s t u : InMemoryStore D R P} {id : ℕ} (h : Reshelved s t id)
    (h' : Agree t u) : Reshelved s u id :=
  ⟨fun j => (congrFun h'.shelved j).le.trans (h.shelved j), h'.active.trans h.active,
    h'.record.trans h.record, h'.lastId.trans h.lastId, h'.cached.trans h.cached⟩

theorem Pruned.of_agree {s t u : InMemoryStore D R P} (h : Pruned s t) (h' : Agree t u) :
    Pruned s u := by
  refine ⟨h'.shelved.trans h.shelved, h'.active.trans h.active, ?_, h'.lastId.trans h.lastId,
    h'.cached.trans h.cached⟩
  intro j
  rw [h'.record]
  exact h.record j

theorem recordView_isSome (s : InMemoryStore D R P) (id : ℕ) :
    (s.recordView id).isSome = s.jobExists id := Option.isSome_map

theorem pruned_remove_job (s : InMemoryStore D R P) (id : ℕ) : Pruned s (s.remove (.job id)) := by
  refine ⟨rfl, rfl, ?_, rfl, rfl⟩
  intro j
  simp only [recordView, getJob, remove, RecordMap.get_remove, CollectionSuffix.job.injEq]
  split_ifs
  · exact Or.inr rfl
  · exact Or.inl rfl

end InMemoryStore

namespace Queue

open InMemoryStore

theorem moveJobToState_eq {q : Queue D R P} {id : ℕ} (hpause : q.isPaused = false)
    (hex : q.store.jobExists id = true) (prev next : JobState) (value : Option (ProcessedResult R))
    (ts : Option ℤ) (backtrace : Option Trace) (clock : Clock) :
    q.moveJobToState id prev next value ts backtrace clock =
      (.ok (), { q with
        store := ((relocate q.store id prev next ts clock).setFields id
          (transitionFields next value ts backtrace)).publishEvent
            (transitionEvent id prev next value) }) := by
  simp [moveJobToState, hpause, hex]

theorem moveJobToState_missing {q : Queue D R P} {id : ℕ} (hpause : q.isPaused = false)
    (hex : q.store.jobExists id = false) (prev next : JobState)
    (value : Option (ProcessedResult R)) (ts : Option ℤ) (backtrace : Option Trace)
    (clock : Clock) :
    q.moveJobToState id prev next value ts backtrace clock = (.error .jobNotFound, q) := by
  simp [moveJobToState, hpause, hex]

/-! ### Fetching -/

theorem moveJobToState_active {q : Queue D R P} {id : ℕ} (hpause : q.isPaused = false)
    (hact : q.store.activeCount id ≠ 0) (prev : JobState) (clock : Clock) :
    ∃ t, (q.moveJobToState id prev .active none none none clock).2 = { q with store := t } ∧
      t.shelved = q.store.shelved ∧ t.activeCount = q.store.activeCount ∧
      t.recordView = Function.update q.store.recordView id
        ((q.store.recordView id).map fun r => { r with working := true }) ∧
      t.idCounter = q.store.idCounter ∧
      t.storedMetrics.isPaused = q.store.storedMetrics.isPaused := by
  cases hex : q.store.jobExists id with
  | true =>
    have hin : q.store.active.containsValue id = true := by
      rw [ConcurrentDeque.containsValue_iff]
      exact List.count_pos_iff.mp (Nat.pos_of_ne_zero hact)
    have hrel : relocate q.store id prev .active none clock = q.store := by
      simp [relocate, CollectionSuffix.ofJobState, existsIn, hin]
    rw [moveJobToState_eq hpause hex, hrel]
    refine ⟨_, rfl, rfl, rfl, ?_, rfl, rfl⟩
    exact q.store.recordView_setFields_state id .active [] (by simp)
  | false =>
    have hnone : q.store.recordView id = none := by
      simpa [hex] using q.store.recordView_isSome id
    rw [moveJobToState_missing hpause hex]
    refine ⟨q.store, rfl, rfl, rfl, ?_, rfl, rfl⟩
    rw [hnone, Option.map_none, ← hnone, Function.update_eq_self]

theorem prepareJob_spec {q : Queue D R P} {id : ℕ} (hpause : q.isPaused = false)
    (hact : q.store.activeCount id ≠ 0) (token : JobToken) (opts : WorkerOpts) (clock : Clock) :
    ∃ t, (q.prepareJob token opts id clock).2 = { q with store := t } ∧
      t.shelved = q.store.shelved ∧ t.activeCount = q.store.activeCount ∧
      t.recordView = Function.update q.store.recordView id
        ((q.store.recordView id).map fun r => { r with working := true }) ∧
      t.idCounter = q.store.idCounter ∧
      t.storedMetrics.isPaused = q.store.storedMetrics.isPaused ∧
      ∀ job, (q.prepareJob token opts id clock).1 = .ok job → t.getJob id = some job := by
  have hlock := q.store.agree_setLock (.lock id) (some token) opts.lockDuration clock.instant
  obtain ⟨t, ht, hs, ha, hr, hl, hc⟩ := moveJobToState_active
    (q := { q with
      store := q.store.setLock (.lock id) (some token) opts.lockDuration clock.instant })
    hpause hact ((q.store.getState id).getD default) clock
  cases hm : moveJobToState { q with
      store := q.store.setLock (.lock id) (some token) opts.lockDuration clock.instant }
      id ((q.store.getState id).getD default) .active none none none clock with
  | mk res q' =>
    rw [hm] at ht
    obtain rfl : q' = { q with store := t } := ht
    cases res with
    | error e =>
      simp only [prepareJob, prepareJobForProcessing, hm]
      exact ⟨t, rfl, hs.trans hlock.shelved, ha.trans hlock.active, hr, hl, hc, by simp⟩
    | ok u =>
      simp only [prepareJob, prepareJobForProcessing, hm]
      have hset := t.agree_setFields id
        [.token token, .processedOn (castUnsigned clock.utc.timestampMicros)] (by simp)
      refine ⟨t.setFields id [.token token, .processedOn (castUnsigned clock.utc.timestampMicros)],
        ?_, hset.shelved.trans hs, hset.active.trans ha, hset.record.trans hr,
        hset.lastId.trans hl, hset.cached.trans hc, ?_⟩
      · split <;> rfl
      · intro job hjob
        split at hjob
        · next found hfound => exact hfound.trans (congrArg some (Except.ok.inj hjob))
        · simp at hjob

theorem moveJobFromPriortyToActive_none {q q' : Queue D R P}
    (h : q.moveJobFromPriortyToActive = (none, q')) : q' = q := by
  unfold moveJobFromPriortyToActive popSet popScored at h
  cases hf : q.store.prioritized.front? with
  | none =>
    simp only [if_true, hf, Prod.mk.injEq, true_and] at h
    exact h.symm
  | some e => simp [hf] at h

theorem moveJobFromPriortyToActive_cases {q q' : Queue D R P} {id : ℕ}
    (h : q.moveJobFromPriortyToActive = (some id, q')) :
    ∃ score es rest, popScored q.store.prioritized true = ((id, score) :: es, rest) ∧
      q' = { q with
        store := ({ q.store with prioritized := rest }).addItem .active id none true } := by
  unfold moveJobFromPriortyToActive popSet at h
  cases hp : popScored q.store.prioritized true with
  | mk found rest =>
    cases found with
    | nil => simp [hp] at h
    | cons e es =>
      obtain ⟨i, score⟩ := e
      simp only [hp, Prod.mk.injEq, Option.some.injEq] at h
      obtain ⟨rfl, rfl⟩ := h
      exact ⟨score, es, rest, rfl, rfl⟩

theorem moveJobFromPriortyToActive_some {q q' : Queue D R P} {id : ℕ}
    (h : q.moveJobFromPriortyToActive = (some id, q')) :
    ∃ s, q' = { q with store := s } ∧ Popped q.store s id := by
  obtain ⟨score, es, rest, hp, rfl⟩ := moveJobFromPriortyToActive_cases h
  refine ⟨_, rfl, ?_, ?_, rfl, rfl, rfl⟩
  · intro j
    have := popScored_cons hp j
    simp only [shelved, addItem]
    omega
  · intro j
    exact activeCount_addItem_active _ id j

theorem prepareJob_popped {q : Queue D R P} {s : InMemoryStore D R P} {id : ℕ}
    (hpause : q.isPaused = false) (hpop : Popped q.store s id) (token : JobToken)
    (opts : WorkerOpts) (clock : Clock) :
    ∃ t, (prepareJob { q with store := s } token opts id clock).2 = { q with store := t } ∧
      Activated q.store t id ∧
      ∀ job, (prepareJob { q with store := s } token opts id clock).1.map
        MoveToActiveResult.processJob = .ok (.processJob job) → t.getJob id = some job := by
  have hpause' : ({ q with store := s } : Queue D R P).isPaused = false := by
    simpa [isPaused, currentMetrics, hpop.cached] using hpause
  have hact : s.activeCount id ≠ 0 := by
    have := hpop.active id
    simp only [if_pos] at this
    omega
  have hrec : s.recordView = q.store.recordView := by
    funext j
    simp only [recordView, getJob, hpop.jobs]
  obtain ⟨t, ht, h₁, h₂, h₃, h₄, h₅, h₆⟩ := prepareJob_spec hpause' hact token opts clock
  refine ⟨t, ht, ⟨?_, ?_, ?_, h₄.trans hpop.lastId, h₅.trans (by simp [hpop.cached])⟩, ?_⟩
  · intro j
    rw [h₁]
    exact hpop.shelved j
  · intro j
    rw [h₂]
    exact hpop.active j
  · rw [h₃]
    simp only [hrec]
  · intro job hjob
    cases hres : (prepareJob { q with store := s } token opts id clock).1 with
    | error e => simp [hres, Except.map] at hjob
    | ok found =>
      obtain rfl : found = job := by simpa [hres, Except.map] using hjob
      exact h₆ found hres

/-- A fetch finds nothing, or it moves one job to the active list and returns its
record if there is one. -/
theorem moveToActive_spec {q : Queue D R P} (hpause : q.isPaused = false) (token : JobToken)
    (opts : WorkerOpts) (clock : Clock) :
    ((q.moveToActive token opts clock).2 = q ∧
        ∀ job, (q.moveToActive token opts clock).1 ≠ .ok (.processJob job)) ∨
      ∃ id t, (q.moveToActive token opts clock).2 = { q with store := t } ∧
        Activated q.store t id ∧
        ∀ job, (q.moveToActive token opts clock).1 = .ok (.processJob job) →
          t.getJob id = some job := by
  unfold moveToActive
  cases hp : q.store.popBackPushFront .wait .active with
  | mk o s =>
    cases o with
    | some id =>
      obtain ⟨t, ht⟩ := prepareJob_popped hpause (popBackPushFront_some hp) token opts clock
      exact Or.inr ⟨id, t, ht⟩
    | none =>
      obtain rfl := popBackPushFront_none hp
      cases hm : q.moveJobFromPriortyToActive with
      | mk o q' =>
        cases o with
        | none =>
          obtain rfl := moveJobFromPriortyToActive_none hm
          simp [hm]
        | some id =>
          obtain ⟨s, rfl, hpop⟩ := moveJobFromPriortyToActive_some hm
          obtain ⟨t, ht⟩ := prepareJob_popped hpause hpop token opts clock
          simp only [hm]
          exact Or.inr ⟨id, t, ht⟩

/-! ### Finishing -/

theorem ofJobState_ne_job (state : JobState) (n : ℕ) :
    CollectionSuffix.ofJobState state ≠ .job n := by
  cases state <;> simp [CollectionSuffix.ofJobState]

theorem transitionFields_tail (next : JobState) (value : Option (ProcessedResult R))
    (ts : Option ℤ) (backtrace : Option Trace) :
    ∃ rest : List (JobField R), transitionFields next value ts backtrace = .state next :: rest ∧
      ∀ field ∈ rest, ∀ state, field ≠ .state state := by
  refine ⟨(backtrace.map JobField.backTrace).toList ++ value.elim [] fun rec =>
    .payload rec :: (ts.map fun t => JobField.finishedOn t.natAbs).toList, rfl, ?_⟩
  intro field hfield state
  cases backtrace <;> cases value <;> cases ts <;> simp at hfield <;> grind

theorem relocate_finished (s : InMemoryStore D R P) (id : ℕ) (prev next : JobState)
    (hnext : next = .failed ∨ next = .completed) (ts : Option ℤ) (clock : Clock) :
    (∀ j, (relocate s id prev next ts clock).shelved j ≤ s.shelved j) ∧
      (∀ j, (relocate s id prev next ts clock).activeCount j =
        if CollectionSuffix.ofJobState prev = .active ∧ j = id then 0 else s.activeCount j) ∧
      (∀ j, (relocate s id prev next ts clock).getJob j =
        if j = id then (s.getJob j).map fun job => incrJob job .attemptsMade 1 else s.getJob j) ∧
      (relocate s id prev next ts clock).idCounter = s.idCounter ∧
      (relocate s id prev next ts clock).storedMetrics = s.storedMetrics := by
  have hcol : CollectionSuffix.ofJobState next = .failed ∨
      CollectionSuffix.ofJobState next = .completed := by
    rcases hnext with rfl | rfl
    · exact Or.inl rfl
    · exact Or.inr rfl
  have hrel : ∃ score, relocate s id prev next ts clock =
      (removeItem { s with jobs := s.jobs.modify (.job id) fun job => incrJob job .attemptsMade 1 }
        (.ofJobState prev) id).addItem (.ofJobState next) id (some score) false := by
    refine ⟨ts.getD clock.utc.timestampMicros, ?_⟩
    simp only [relocate, if_pos hnext]
    rfl
  obtain ⟨score, hrel⟩ := hrel
  generalize hmid : (removeItem { s with
    jobs := s.jobs.modify (.job id) fun job => incrJob job .attemptsMade 1 }
    (.ofJobState prev) id) = m at hrel
  have hadd : (relocate s id prev next ts clock).shelved = m.shelved ∧
      (relocate s id prev next ts clock).activeCount = m.activeCount ∧
      (relocate s id prev next ts clock).getJob = m.getJob ∧
      (relocate s id prev next ts clock).idCounter = m.idCounter ∧
      (relocate s id prev next ts clock).storedMetrics = m.storedMetrics := by
    rw [hrel]
    rcases hcol with hc | hc <;> rw [hc] <;> exact ⟨rfl, rfl, rfl, rfl, rfl⟩
  obtain ⟨h₁, h₂, h₃, h₄, h₅⟩ := hadd
  rw [h₁, h₂, h₃, h₄, h₅, ← hmid]
  refine ⟨?_, ?_, ?_, ?_, ?_⟩
  · exact fun j => shelved_removeItem_le _ _ id j
  · exact fun j => activeCount_removeItem _ _ id j
  · intro j
    rw [getJob_removeItem _ _ _ (ofJobState_ne_job prev)]
    exact s.getJob_modify id _ j
  · cases prev <;> rfl
  · cases prev <;> rfl

theorem moveJobToFinishedOrFailed_missing {q : Queue D R P} {id : ℕ}
    (hpause : q.isPaused = false) (hex : q.store.getJob id = none) (ts : ℤ) (token : JobToken)
    (next : JobState) (processed : ProcessedResult R) (backtrace : Option Trace) (clock : Clock) :
    q.moveJobToFinishedOrFailed id ts token next processed backtrace clock =
      (.error .jobNotFound, q) := by
  have hex' : q.store.jobExists id = false := by simp [jobExists, hex]
  simp only [moveJobToFinishedOrFailed, moveJobToState_missing hpause hex']

def finishedRecord (r : Job D R P) (ts : ℤ) (next : JobState) (processed : ProcessedResult R)
    (backtrace : Option Trace) : Job D R P :=
  (transitionFields next (some processed) (some ts) backtrace).foldl Job.setField
    (incrJob r .attemptsMade 1)

def finishedStore (s : InMemoryStore D R P) (id : ℕ) (r : Job D R P) (ts : ℤ) (next : JobState)
    (processed : ProcessedResult R) (backtrace : Option Trace) (clock : Clock) :
    InMemoryStore D R P :=
  ((relocate s id r.state next (some ts) clock).setFields id
    (transitionFields next (some processed) (some ts) backtrace)).publishEvent
      (transitionEvent id r.state next (some processed))

theorem getJob_finishedStore {s : InMemoryStore D R P} {id : ℕ} {r : Job D R P}
    (hr : s.getJob id = some r) (ts : ℤ) {next : JobState}
    (hnext : next = .failed ∨ next = .completed) (processed : ProcessedResult R)
    (backtrace : Option Trace) (clock : Clock) (j : ℕ) :
    (finishedStore s id r ts next processed backtrace clock).getJob j =
      if j = id then some (finishedRecord r ts next processed backtrace) else s.getJob j := by
  obtain ⟨-, -, hjobs, -, -⟩ := relocate_finished s id r.state next hnext (some ts) clock
  refine (getJob_setFields _ _ _ j).trans ?_
  rw [hjobs]
  by_cases hj : j = id
  · subst hj
    simp only [if_true, hr, Option.map_some]
    rfl
  · simp only [if_neg hj]

theorem moveJobToFinishedOrFailed_eq {q : Queue D R P} {id : ℕ} {r : Job D R P}
    (hpause : q.isPaused = false) (hr : q.store.getJob id = some r) (ts : ℤ) (token : JobToken)
    {next : JobState} (hnext : next = .failed ∨ next = .completed)
    (processed : ProcessedResult R) (backtrace : Option Trace) (clock : Clock) :
    q.moveJobToFinishedOrFailed id ts token next processed backtrace clock =
      (.ok (finishedRecord r ts next processed backtrace),
        { q with store := finishedStore q.store id r ts next processed backtrace clock }) := by
  have hex : q.store.jobExists id = true := by simp [jobExists, hr]
  have hstate : (q.store.getState id).getD default = r.state := by simp [getState, hr]
  have hfound := getJob_finishedStore hr ts hnext processed backtrace clock id
  rw [if_pos rfl] at hfound
  unfold finishedStore at hfound ⊢
  simp only [moveJobToFinishedOrFailed, hstate, moveJobToState_eq hpause hex, hfound]

theorem opts_foldl_setField (job : Job D R P) (fields : List (JobField R)) :
    (fields.foldl Job.setField job).opts = job.opts := by
  induction fields generalizing job with
  | nil => rfl
  | cons field rest ih =>
    rw [List.foldl_cons, ih]
    cases field with
    | payload result => cases result <;> rfl
    | _ => rfl

theorem view_finishedRecord (r : Job D R P) (ts : ℤ) (next : JobState)
    (processed : ProcessedResult R) (backtrace : Option Trace) :
    (finishedRecord r ts next processed backtrace).view =
      { r.view with spent := r.attemptsMade + 1, working := decide (next = .active) } := by
  obtain ⟨rest, hfields, hrest⟩ := transitionFields_tail next (some processed) (some ts) backtrace
  rw [finishedRecord, hfields, List.foldl_cons, Job.view_foldl_setField _ rest hrest]
  simp only [Job.view, Job.setField, incrJob]
  congr 1

theorem moveJobToFinishedOrFailed_spec {q : Queue D R P} {id : ℕ} {r : Job D R P}
    (hpause : q.isPaused = false) (hr : q.store.getJob id = some r) (ts : ℤ) (token : JobToken)
    {next : JobState} (hnext : next = .failed ∨ next = .completed)
    (processed : ProcessedResult R) (backtrace : Option Trace) (clock : Clock) :
    ∃ t r', q.moveJobToFinishedOrFailed id ts token next processed backtrace clock =
      (.ok r', { q with store := t }) ∧ Finished q.store t id r r' := by
  refine ⟨_, _, moveJobToFinishedOrFailed_eq hpause hr ts token hnext processed backtrace clock, ?_⟩
  have hjobs := getJob_finishedStore hr ts hnext processed backtrace clock
  have hview := view_finishedRecord r ts next processed backtrace
  obtain ⟨hshelved, hactive, -, hlast, hcached⟩ :=
    relocate_finished q.store id r.state next hnext (some ts) clock
  have hflag := congrArg QueueMetrics.isPaused hcached
  constructor
  · exact hshelved
  · intro j hj
    exact (hactive j).trans (if_neg fun h => hj h.2)
  · refine (hactive id).le.trans ?_
    split_ifs <;> omega
  · intro hs
    exact (hactive id).trans (if_pos ⟨by rw [hs]; rfl, rfl⟩)
  · funext j
    unfold recordView
    rw [hjobs]
    by_cases hj : j = id
    · subst hj
      rw [if_pos rfl, Function.update_self, Option.map_some]
    · rw [if_neg hj, Function.update_of_ne hj]
  · exact congrArg RecordView.spent hview
  · exact opts_foldl_setField _ _
  · exact congrArg RecordView.selfId hview
  · exact hlast
  · exact hflag

/-! ### After a finished job -/

theorem retryJob_spec (q : Queue D R P) (id : ℕ) (opts : RetryOptions) (attempts : ℕ)
    (clock : Clock) :
    ∃ t, (q.retryJob id opts attempts clock).2 = { q with store := t } ∧
      Reshelved q.store t id := by
  have hsame : Reshelved q.store q.store id :=
    ⟨fun j => Nat.le_add_right _ _, rfl, rfl, rfl, rfl⟩
  have hwait : Reshelved q.store (q.store.addItem .wait id none true) id :=
    ⟨fun j => (q.store.shelved_addItem_wait id j).le, rfl, rfl, rfl, rfl⟩
  have hdelay : ∀ score b, Reshelved q.store (q.store.addItem .delayed id (some score) b) id :=
    fun score b => ⟨q.store.shelved_addItem_delayed_le id score b, rfl, rfl, rfl, rfl⟩
  cases opts with
  | failed backoffJobOpts =>
    simp only [retryJob, retryFailed]
    split
    · exact ⟨q.store, rfl, hsame⟩
    · split
      · exact ⟨q.store, rfl, hsame⟩
      · exact ⟨_, rfl, (hdelay _ false).of_agree ⟨rfl, rfl, rfl, rfl, rfl⟩⟩
  | withRepeat r =>
    simp only [retryJob]
    split
    · exact ⟨q.store, rfl, hsame⟩
    · exact ⟨q.store, rfl, hsame⟩
    · split_ifs
      · exact ⟨_, rfl, hwait⟩
      · exact ⟨_, rfl, hdelay _ true⟩

theorem cleanUpJob_spec (q : Queue D R P) (id : ℕ)
    (removeOptions : Option RemoveOnCompletionOrFailure) (clock : Clock) :
    ∃ t, q.cleanUpJob id removeOptions clock = { q with store := t } ∧ Pruned q.store t := by
  have hsame : Pruned q.store q.store := (Agree.refl q.store).pruned
  unfold cleanUpJob
  split
  · exact ⟨q.store, rfl, hsame⟩
  · split_ifs
    · exact ⟨_, rfl, q.store.pruned_remove_job id⟩
    · exact ⟨q.store, rfl, hsame⟩
  · split_ifs
    · exact ⟨_, rfl, q.store.pruned_remove_job id⟩
    · exact ⟨q.store, rfl, hsame⟩
  · next keep =>
    have hage : Agree q.store
        (keep.age.elim q.store fun secs => q.store.expire (.job id) secs clock.instant) := by
      cases keep.age with
      | none => exact Agree.refl _
      | some secs => exact q.store.agree_expire (.job id) secs clock.instant
    simp only
    split_ifs
    · have hrem := pruned_remove_job
        (keep.age.elim q.store fun secs => q.store.expire (.job id) secs clock.instant) id
      refine ⟨_, rfl, hrem.shelved.trans hage.shelved, hrem.active.trans hage.active, ?_,
        hrem.lastId.trans hage.lastId, hrem.cached.trans hage.cached⟩
      intro j
      rw [← hage.record]
      exact hrem.record j
    · exact ⟨_, rfl, hage.pruned⟩

theorem releaseTask_spec (q : Queue D R P) (handle : Option ℕ) (workerId : Uuid) (id : ℕ)
    (state : JobState) :
    ∃ t, q.releaseTask handle workerId id state = { q with store := t } ∧ Agree q.store t := by
  cases handle with
  | none => exact ⟨q.store, rfl, Agree.refl _⟩
  | some h =>
    exact ⟨_, rfl, (q.store.agree_incr_metaKey _ _).trans (agree_publishEvent _ _)⟩

/-- What may follow a finished job: it is put back only if attempts are left. -/
def Followed (s t : InMemoryStore D R P) (id made attempts : ℕ) : Prop :=
  (Reshelved s t id ∧ made < attempts) ∨ Pruned s t

theorem Followed.of_agree {s t u : InMemoryStore D R P} {id made attempts : ℕ}
    (h : Followed s t id made attempts) (h' : Agree t u) : Followed s u id made attempts := by
  rcases h with ⟨h, hlt⟩ | h
  · exact Or.inl ⟨h.of_agree h', hlt⟩
  · exact Or.inr (h.of_agree h')

/-- What the end of a task does with the queue: nothing, another attempt if there is one
left, or the retention policy. -/
inductive FollowStep (q : Queue D R P) (id made attempts : ℕ) (clock : Clock) :
    Queue D R P → Prop
  | skip : FollowStep q id made attempts clock q
  | retry (opts : RetryOptions) (n : ℕ) (h : made < attempts) :
    FollowStep q id made attempts clock (q.retryJob id opts n clock).2
  | cleanUp (removeOptions : Option RemoveOnCompletionOrFailure) :
    FollowStep q id made attempts clock (q.cleanUpJob id removeOptions clock)

theorem repeatOrCleanUp_followStep (q : Queue D R P) (id : ℕ) (completed : Job D R P)
    (entry : JobMeta D R P) (clock : Clock) :
    FollowStep q id completed.attemptsMade entry.job.opts.attempts clock
      (q.repeatOrCleanUp id completed entry clock).2 := by
  unfold repeatOrCleanUp
  split_ifs with hlt
  · split
    · exact .retry _ _ hlt
    · exact .skip
  · exact .cleanUp _

theorem retryOrCleanUp_followStep (q : Queue D R P) (id : ℕ) (failedJob : Job D R P)
    (entry : JobMeta D R P) (clock : Clock) :
    FollowStep q id failedJob.attemptsMade entry.job.opts.attempts clock
      (q.retryOrCleanUp id failedJob entry clock).2 := by
  unfold retryOrCleanUp
  by_cases hlt : failedJob.attemptsMade < entry.job.opts.attempts
  · have hne : failedJob.attemptsMade ≠ entry.job.opts.attempts := by omega
    simp only [if_pos hlt, if_neg hne]
    cases entry.job.opts.backoff with
    | none => exact .skip
    | some b =>
      have hretry : FollowStep q id failedJob.attemptsMade entry.job.opts.attempts clock
          (q.retryJob id (.failed b) (predU64 failedJob.attemptsMade) clock).2 := .retry _ _ hlt
      cases hres : q.retryJob id (.failed b) (predU64 failedJob.attemptsMade) clock with
      | mk res q' =>
        rw [hres] at hretry
        cases res <;> simpa only [hres] using hretry
  · simp only [if_neg hlt]
    split_ifs
    · exact .cleanUp _
    · exact .skip

theorem FollowStep.spec {q q' : Queue D R P} {id made attempts : ℕ} {clock : Clock}
    (h : FollowStep q id made attempts clock q') :
    ∃ t, q' = { q with store := t } ∧ Followed q.store t id made attempts := by
  cases h with
  | skip => exact ⟨q.store, rfl, Or.inr (Agree.refl _).pruned⟩
  | retry opts n hlt =>
    obtain ⟨t, ht, hs⟩ := q.retryJob_spec id opts n clock
    exact ⟨t, ht, Or.inl ⟨hs, hlt⟩⟩
  | cleanUp removeOptions =>
    obtain ⟨t, ht, hs⟩ := q.cleanUpJob_spec id removeOptions clock
    exact ⟨t, ht, Or.inr hs⟩

theorem settle_spec {q : Queue D R P} {id made : ℕ} {entry : JobMeta D R P}
    (hent : q.jobsInProgress.get? id = some entry) (workerId : Uuid) (state : JobState)
    {follow : Queue D R P → JobMeta D R P → KioResult Unit × Queue D R P}
    (hfollow : ∀ q entry, ∃ t, (follow q entry).2 = { q with store := t } ∧
      Followed q.store t id made entry.job.opts.attempts) :
    ∃ t, (q.settle id workerId state follow).2 =
        { q with jobsInProgress := q.jobsInProgress.remove id, store := t } ∧
      Followed q.store t id made entry.job.opts.attempts := by
  obtain ⟨t, ht, hfol⟩ := hfollow { q with jobsInProgress := q.jobsInProgress.remove id } entry
  cases hres : follow { q with jobsInProgress := q.jobsInProgress.remove id } entry with
  | mk res q' =>
    rw [hres] at ht
    obtain rfl : q' = { q with jobsInProgress := q.jobsInProgress.remove id, store := t } := ht
    cases res with
    | error e =>
      simp only [settle, hent, hres]
      exact ⟨t, rfl, hfol⟩
    | ok u =>
      obtain ⟨t', ht', hagree⟩ := releaseTask_spec
        { q with jobsInProgress := q.jobsInProgress.remove id, store := t }
        entry.handle workerId id state
      simp only [settle, hent, hres]
      exact ⟨t', ht', hfol.of_agree hagree⟩

end Queue

end Kiomq
