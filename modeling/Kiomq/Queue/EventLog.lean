import Kiomq.Foundations.Journals
import Kiomq.Queue.Placement
import Kiomq.Queue.SingleHolder
import Kiomq.Redis.StreamEvents

/-!
# What a listener learns from the events

The listener turns each published event into its parameters, which panics if a completed
event has no value or a progress event no data, and hands them to the subscribers. The queue
writes the state of a record and publishes the event about it in one operation, so that the
events are a journal of the records. A job that is added to a paused queue would not be
announced, since the event of a pause carries no parameters, but the cached flag that decides
about this stays off.
-/

namespace Kiomq

open Foundations

variable {D R P : Type}

/-- What the parameters of an event tell about the state of a job. -/
def EventParameters.report? : EventParameters R P → Option (Report ℕ JobState)
  | .prioritized jobId _ _ => some ⟨jobId, none, .prioritized⟩
  | .added jobId _ => some ⟨jobId, none, .wait⟩
  | .waitingToRun jobId prevState => some ⟨jobId, prevState, .wait⟩
  | .delayed jobId _ => some ⟨jobId, none, .delayed⟩
  | .active jobId prevState => some ⟨jobId, prevState, .active⟩
  | .completed jobId _ _ prevState _ => some ⟨jobId, prevState, .completed⟩
  | .void => none
  | .progress _ _ => none
  | .stalled jobId prevState => some ⟨jobId, some prevState, .stalled⟩
  | .failed _ jobId prevState => some ⟨jobId, some prevState, .failed⟩
  | .processing _ _ _ => none

namespace InMemoryStore

/-- The reports that a listener gets; `none` if an event makes it panic. -/
def reports (s : InMemoryStore D R P) : Option (List (Report ℕ JobState)) :=
  (s.events.mapM EventParameters.fromQueueEvent).map fun params =>
    params.filterMap EventParameters.report?

/-- No event makes the listener panic, and the reports are a journal of the records. -/
def Told (s : InMemoryStore D R P) : Prop :=
  ∃ log, s.reports = some log ∧ Journals log s.getState

/-- Ids beyond the counter are unknown to both the journal and the store. -/
structure Chronicled (s : InMemoryStore D R P) (log : List (Report ℕ JobState)) : Prop where
  read : s.reports = some log
  journals : Journals log s.getState
  unreported : ∀ id, s.idCounter < id → latest log id = none
  absent : ∀ id, s.idCounter < id → s.getState id = none

/-- Nothing is published, and no record has got another state. -/
structure Silent (s t : InMemoryStore D R P) : Prop where
  events : t.events = s.events
  state : ∀ j state, t.getState j = some state → s.getState j = some state
  lastId : s.idCounter ≤ t.idCounter

theorem Silent.refl (s : InMemoryStore D R P) : Silent s s := ⟨rfl, fun _ _ h => h, le_rfl⟩

theorem Silent.trans {s t u : InMemoryStore D R P} (h : Silent s t) (h' : Silent t u) :
    Silent s u :=
  ⟨h'.events.trans h.events, fun j state hj => h.state j state (h'.state j state hj),
    h.lastId.trans h'.lastId⟩

theorem Fewer.silent {s t : InMemoryStore D R P} (h : Fewer s t) (hevents : t.events = s.events) :
    Silent s t :=
  ⟨hevents, h.state, h.lastId⟩

theorem silent_addItem (s : InMemoryStore D R P) (col : CollectionSuffix) (i : ℕ)
    (score : Option ℤ) (append : Bool) : Silent s (s.addItem col i score append) := by
  refine ⟨by cases col <;> rfl, fun j state hj => ?_, by cases col <;> exact le_rfl⟩
  rwa [getState_addItem] at hj

theorem silent_removeItem (s : InMemoryStore D R P) (state : JobState) (i : ℕ) :
    Silent s (s.removeItem (CollectionSuffix.ofJobState state) i) :=
  (s.fewer_removeItem state i).silent (by cases state <;> rfl)

theorem silent_existsIn (s : InMemoryStore D R P) (col : CollectionSuffix) (i now : ℕ) :
    Silent s (s.existsIn col i now).2 := by
  cases col <;> exact ⟨rfl, fun _ _ h => h, le_rfl⟩

theorem silent_setFields (s : InMemoryStore D R P) (id : ℕ) (fields : List (JobField R))
    (h : ∀ field ∈ fields, ∀ state, field ≠ .state state) : Silent s (s.setFields id fields) :=
  (s.fewer_setFields id fields h).silent rfl

theorem silent_place (s : InMemoryStore D R P) (a : Admission D R P) (pc id : ℕ)
    (isPaused : Bool) : Silent s (s.place a pc id isPaused).2 := by
  by_cases hd : 0 < a.delay
  · cases he : a.expected with
    | none =>
      simp only [place, if_pos hd, he]
      exact Silent.refl s
    | some activeTime =>
      simp only [place, if_pos hd, he]
      exact s.silent_addItem _ _ _ _
  · by_cases hp : 0 < a.job.opts.priority
    · simp only [place, if_neg hd, if_pos hp]
      exact s.silent_addItem _ _ _ _
    · simp only [place, if_neg hd, if_neg hp]
      exact s.silent_addItem _ _ _ _

theorem getState_setFields (s : InMemoryStore D R P) (id : ℕ) (next : JobState)
    (fields : List (JobField R)) (h : ∀ field ∈ fields, ∀ state, field ≠ .state state) :
    (∀ state, (s.setFields id (.state next :: fields)).getState id = some state → state = next) ∧
      ∀ j state, j ≠ id → (s.setFields id (.state next :: fields)).getState j = some state →
        s.getState j = some state := by
  simp only [getState]
  constructor
  · intro state hs
    rw [getJob_setFields, if_pos rfl, Option.map_map] at hs
    obtain ⟨job, -, rfl⟩ := Option.map_eq_some_iff.mp hs
    exact state_foldl_setField _ fields h
  · intro j state hne hs
    rwa [getJob_setFields, if_neg hne] at hs

/-! ### Publishing -/

theorem reports_publishEvent {s : InMemoryStore D R P} {log : List (Report ℕ JobState)}
    (h : s.reports = some log) {event : QueueStreamEvent R P} {params : EventParameters R P}
    (hread : EventParameters.fromQueueEvent event = some params) :
    (s.publishEvent event).reports = some (log ++ params.report?.toList) := by
  obtain ⟨before, hbefore, rfl⟩ := Option.map_eq_some_iff.mp h
  have hall : (s.publishEvent event).events.mapM EventParameters.fromQueueEvent =
      some (before ++ [params]) := by
    simp [publishEvent, List.mapM_append, hbefore, hread]
  simp only [reports, hall, Option.map_some, List.filterMap_append]
  cases hreport : params.report? <;> simp [hreport]

namespace Chronicled

variable {s t : InMemoryStore D R P} {log : List (Report ℕ JobState)}

theorem told (h : Chronicled s log) : s.Told := ⟨log, h.read, h.journals⟩

theorem silent (h : Chronicled s log) (hst : Silent s t) : Chronicled t log := by
  refine ⟨?_, h.journals.fewer hst.state, fun id hid => ?_, fun id hid => ?_⟩
  · rw [reports, hst.events]
    exact h.read
  · exact h.unreported id (hst.lastId.trans_lt hid)
  · have hnone := h.absent id (hst.lastId.trans_lt hid)
    by_contra hsome
    obtain ⟨state, hstate⟩ := Option.ne_none_iff_exists'.mp hsome
    rw [hst.state id state hstate] at hnone
    cases hnone

theorem publish (h : Chronicled s log) {event : QueueStreamEvent R P}
    (params : EventParameters R P)
    (hread : EventParameters.fromQueueEvent event = some params) (hreport : params.report? = none) :
    Chronicled (s.publishEvent event) log := by
  refine ⟨?_, h.journals, h.unreported, h.absent⟩
  rw [reports_publishEvent h.read hread, hreport, Option.toList_none, List.append_nil]

theorem publish_report (h : Chronicled s log) {event : QueueStreamEvent R P}
    {params : EventParameters R P} {r : Report ℕ JobState}
    (hread : EventParameters.fromQueueEvent event = some params)
    (hreport : params.report? = some r) (hr : r.Continues log)
    (hevents : t.events = s.events) (hlast : s.idCounter ≤ t.idCounter)
    (hkey : r.key ≤ t.idCounter) (hself : ∀ state, t.getState r.key = some state → state = r.after)
    (hrest : ∀ j state, j ≠ r.key → t.getState j = some state → s.getState j = some state) :
    Chronicled (t.publishEvent event) (log ++ [r]) := by
  have ht : t.reports = some log := by
    rw [reports, hevents]
    exact h.read
  refine ⟨?_, h.journals.write hr hself hrest, fun id hid => ?_, fun id hid => ?_⟩
  · rw [reports_publishEvent ht hread, hreport, Option.toList_some]
  · rw [latest_append_of_ne (hkey.trans_lt hid).ne']
    exact h.unreported id (hlast.trans_lt hid)
  · by_contra hsome
    obtain ⟨state, hstate⟩ := Option.ne_none_iff_exists'.mp hsome
    have hbefore := hrest id state (hkey.trans_lt hid).ne' hstate
    rw [h.absent id (hlast.trans_lt hid)] at hbefore
    cases hbefore

end Chronicled

/-! ### New jobs -/

theorem getState_storeRecord (s : InMemoryStore D R P) (id : ℕ) (job : Job D R P) (j : ℕ) :
    (s.storeRecord id job).getState j = if j = id then some job.state else s.getState j := by
  simp only [getState, getJob, storeRecord, RecordMap.get_insertConstant,
    CollectionSuffix.job.injEq]
  split_ifs <;> rfl

theorem place_event (s : InMemoryStore D R P) (a : Admission D R P) (pc id : ℕ)
    (hwait : a.job.state = .wait) :
    let placed := (s.place a pc id false).1
    placed.1 = placed.2 ∧
      (placed.2 = .delayed ∨ placed.2 = .prioritized ∨ placed.2 = .wait) := by
  simp only [place, Bool.false_eq_true, if_false]
  cases a.expected <;> split_ifs <;> simp [hwait]

theorem insertedEvent_report (a : Admission D R P) (id : ℕ) (name : String) {event : JobState}
    (h : event = .delayed ∨ event = .prioritized ∨ event = .wait) :
    ∃ params, EventParameters.fromQueueEvent (insertedEvent a id name event) = some params ∧
      params.report? = some ⟨id, none, event⟩ := by
  rcases h with rfl | rfl | rfl
  · exact ⟨.delayed id _, rfl, rfl⟩
  · exact ⟨.prioritized id _ _, rfl, rfl⟩
  · exact ⟨.added id _, rfl, rfl⟩

theorem chronicled_insert {s : InMemoryStore D R P} {log : List (Report ℕ JobState)} {id : ℕ}
    (h : Chronicled s log) (hid : id ≤ s.idCounter) (hnew : latest log id = none)
    (job : Job D R P) (hwait : job.state = .wait) (opts : JobOptions) (pc : ℕ) (name : String)
    (clock : Clock) :
    ∃ log', Chronicled (s.insert job opts pc id name false clock).2 log' := by
  unfold InMemoryStore.insert
  cases hcheck : checkOptions job opts clock.utc with
  | error e => exact ⟨log, h⟩
  | ok a =>
    obtain ⟨-, -, hstate⟩ := checkOptions_spec hcheck
    have hplaced := h.silent (s.silent_place a pc id false)
    have hlast := (s.silent_place a pc id false).lastId
    have hevent := s.place_event a pc id (hstate.trans hwait)
    dsimp only at hevent ⊢
    generalize s.place a pc id false = placed at hplaced hlast hevent ⊢
    obtain ⟨params, hread, hreport⟩ := insertedEvent_report a id name hevent.2
    have hget := placed.2.getState_storeRecord id
      { a.job with state := placed.1.1, id := some id }
    refine ⟨_, hplaced.publish_report hread hreport hnew rfl le_rfl (hid.trans hlast)
      (fun state hs => ?_) (fun j state hne hs => ?_)⟩
    · rw [hget, if_pos rfl] at hs
      exact (Option.some.inj hs).symm.trans hevent.1
    · rwa [hget, if_neg hne] at hs

theorem chronicled_addOne {s : InMemoryStore D R P} (h : ∃ log, Chronicled s log)
    (item : NewJob D) (queueOpts : QueueOpts) (clock : Clock) :
    ∃ log, Chronicled (s.addOne item queueOpts false clock).2 log := by
  obtain ⟨log, h⟩ := h
  obtain ⟨pc, counter, heq⟩ := s.addOne_eq item queueOpts false clock
  have hcounters : Silent s { s with priorityCounter := counter, idCounter := s.idCounter + 1 } :=
    ⟨rfl, fun _ _ hj => hj, Nat.le_succ _⟩
  rw [heq]
  exact chronicled_insert (h.silent hcounters) le_rfl (h.unreported _ (Nat.lt_succ_self _)) _ rfl
    _ _ _ _

end InMemoryStore

/-! ### Operations of the queue -/

namespace Queue

open InMemoryStore

theorem silent_relocate (s : InMemoryStore D R P) (id : ℕ) (prev next : JobState)
    (ts : Option ℤ) (clock : Clock) : Silent s (relocate s id prev next ts clock) := by
  unfold relocate
  dsimp only
  split_ifs
  · have hincr : Silent s (s.incr (.job id) 1 (some .attemptsMade)).2 :=
      (s.fewer_incr_attempts id).silent rfl
    exact (hincr.trans (silent_removeItem _ _ _)).trans (silent_addItem _ _ _ _ _)
  · exact s.silent_existsIn _ _ _
  · exact ((s.silent_existsIn _ _ _).trans (silent_removeItem _ _ _)).trans
      (silent_addItem _ _ _ _ _)

/-- A transition of the kinds that the workers and the promotion make. -/
def Reportable (next : JobState) (value : Option (ProcessedResult R)) : Prop :=
  next = .active ∧ value = none ∨ (∃ result metrics, next = .completed ∧
    value = some (.success result metrics)) ∨ ∃ details, next = .failed ∧
      value = some (.failed details)

theorem transitionEvent_report {next : JobState} {value : Option (ProcessedResult R)}
    (h : Reportable next value) (id : ℕ) (prev : JobState) :
    ∃ params : EventParameters R P,
      EventParameters.fromQueueEvent (transitionEvent id prev next value) = some params ∧
        params.report? = some ⟨id, some prev, next⟩ := by
  rcases h with ⟨rfl, rfl⟩ | ⟨result, metrics, rfl, rfl⟩ | ⟨details, rfl, rfl⟩
  · exact ⟨_, rfl, rfl⟩
  · exact ⟨_, rfl, rfl⟩
  · exact ⟨_, rfl, rfl⟩

theorem chronicled_moveJobToState {q : Queue D R P} (h : ∃ log, Chronicled q.store log) (id : ℕ)
    {next : JobState} {value : Option (ProcessedResult R)} (hnext : Reportable next value)
    (ts : Option ℤ) (backtrace : Option Trace) (clock : Clock) :
    ∃ log, Chronicled (q.moveJobToState id ((q.store.getState id).getD default) next value ts
      backtrace clock).2.store log := by
  obtain ⟨log, h⟩ := h
  unfold moveJobToState
  split_ifs with hpause hex
  · exact ⟨log, h⟩
  · exact ⟨log, h⟩
  · obtain ⟨before, hbefore⟩ : ∃ before, q.store.getState id = some before := by
      rw [← Option.isSome_iff_exists, getState, Option.isSome_map]
      simpa only [jobExists, Bool.not_eq_true', Bool.not_eq_false] using hex
    obtain ⟨params, hread, hreport⟩ := transitionEvent_report (P := P) hnext id before
    obtain ⟨rest, hfields, hrest⟩ := transitionFields_tail next value ts backtrace
    have hmoved := h.silent (silent_relocate q.store id before next ts clock)
    have hlast := (silent_relocate q.store id before next ts clock).lastId
    have hid : id ≤ q.store.idCounter := by
      by_contra hlt
      rw [h.absent id (not_le.mp hlt)] at hbefore
      cases hbefore
    have hset := getState_setFields (relocate q.store id before next ts clock) id next rest hrest
    rw [hbefore, Option.getD_some, hfields]
    refine ⟨_, hmoved.publish_report hread hreport (h.journals.continues_of_state hbefore) rfl
      le_rfl (hid.trans hlast) (fun state hs => ?_) (fun j state hne hs => ?_)⟩
    · exact hset.1 state hs
    · exact hset.2 j state hne hs

theorem chronicled_moveJobToFinishedOrFailed {q : Queue D R P} (h : ∃ log, Chronicled q.store log)
    (id : ℕ) (ts : ℤ) (token : JobToken) {next : JobState} {processed : ProcessedResult R}
    (hnext : Reportable next (some processed)) (backtrace : Option Trace) (clock : Clock) :
    ∃ log, Chronicled (q.moveJobToFinishedOrFailed id ts token next processed backtrace
      clock).2.store log := by
  rw [moveJobToFinishedOrFailed_snd]
  exact chronicled_moveJobToState h id hnext (some ts) backtrace clock

theorem chronicled_prepareJob {q : Queue D R P} (h : ∃ log, Chronicled q.store log)
    (token : JobToken) (opts : WorkerOpts) (id : ℕ) (clock : Clock) :
    ∃ log, Chronicled (q.prepareJob token opts id clock).2.store log := by
  obtain ⟨log, h⟩ := h
  have hlock : Silent q.store
      (q.store.setLock (.lock id) (some token) opts.lockDuration clock.instant) :=
    (q.store.fewer_setLock _ _ _ _).silent rfl
  have hmove := chronicled_moveJobToState (q := { q with
      store := q.store.setLock (.lock id) (some token) opts.lockDuration clock.instant })
    ⟨log, h.silent hlock⟩ id (.inl ⟨rfl, rfl⟩) none none clock
  unfold prepareJob prepareJobForProcessing
  dsimp only
  split
  · next heq =>
    have hstore := congrArg (fun out => out.2.store) heq
    exact hstore ▸ hmove
  · next q' heq =>
    have hstore := congrArg (fun out => out.2.store) heq
    obtain ⟨log', h'⟩ : ∃ log, Chronicled q'.store log := hstore ▸ hmove
    have hset := q'.store.silent_setFields id
      [.token token, .processedOn (castUnsigned clock.utc.timestampMicros)] (by simp)
    split <;> exact ⟨log', h'.silent hset⟩

theorem chronicled_moveToActive {q : Queue D R P} (h : ∃ log, Chronicled q.store log)
    (token : JobToken) (opts : WorkerOpts) (clock : Clock) :
    ∃ log, Chronicled (q.moveToActive token opts clock).2.store log := by
  unfold moveToActive
  cases hp : q.store.popBackPushFront .wait .active with
  | mk found s =>
    cases found with
    | some id =>
      have hpop : Silent q.store s := by
        obtain ⟨waiting, -, rfl⟩ := popBackPushFront_cases hp
        exact ⟨rfl, fun _ _ hj => hj, le_rfl⟩
      obtain ⟨log, h⟩ := h
      exact chronicled_prepareJob (q := { q with store := s }) ⟨log, h.silent hpop⟩ token opts id
        clock
    | none =>
      obtain rfl := popBackPushFront_none hp
      cases hm : q.moveJobFromPriortyToActive with
      | mk found q' =>
        cases found with
        | none =>
          obtain rfl := moveJobFromPriortyToActive_none hm
          simpa only [hm] using h
        | some id =>
          have hpop : Silent q.store q'.store := by
            obtain ⟨score, es, rest, -, rfl⟩ := moveJobFromPriortyToActive_cases hm
            have hrest : Silent q.store { q.store with prioritized := rest } :=
              ⟨rfl, fun _ _ hj => hj, le_rfl⟩
            exact hrest.trans (silent_addItem _ .active id none true)
          obtain ⟨log, h⟩ := h
          simp only [hm]
          exact chronicled_prepareJob ⟨log, h.silent hpop⟩ token opts id clock

theorem chronicled_updateProcessingCount {q : Queue D R P} (h : ∃ log, Chronicled q.store log)
    (increment : Bool) (workerId : Uuid) (id : ℕ) (state : JobState) :
    ∃ log, Chronicled (q.updateProcessingCount increment workerId id state).2.store log := by
  obtain ⟨log, h⟩ := h
  have hcount : Silent q.store
      (q.store.incr .metaKey (if increment then 1 else -1) (some .processing)).2 :=
    ⟨rfl, fun _ _ hj => hj, le_rfl⟩
  exact ⟨log, (h.silent hcount).publish (.processing workerId id state) rfl rfl⟩

theorem silent_retryJob (q : Queue D R P) (id : ℕ) (opts : RetryOptions) (attempts : ℕ)
    (clock : Clock) : Silent q.store (q.retryJob id opts attempts clock).2.store := by
  cases opts with
  | failed backoffJobOpts =>
    simp only [retryJob, retryFailed]
    split
    · exact Silent.refl _
    · split
      · exact Silent.refl _
      · exact (silent_addItem _ _ _ _ _).trans (silent_removeItem _ .failed _)
  | withRepeat r =>
    simp only [retryJob]
    split
    · exact Silent.refl _
    · exact Silent.refl _
    · split_ifs
      · exact q.store.silent_addItem .wait id none true
      · exact q.store.silent_addItem .delayed id _ true

theorem silent_cleanUpJob (q : Queue D R P) (id : ℕ)
    (removeOptions : Option RemoveOnCompletionOrFailure) (clock : Clock) :
    Silent q.store (q.cleanUpJob id removeOptions clock).store := by
  refine (q.fewer_cleanUpJob id removeOptions clock).silent ?_
  unfold cleanUpJob
  split
  · rfl
  · split_ifs <;> rfl
  · split_ifs <;> rfl
  · next keep => cases keep.age <;> dsimp only [Option.elim] <;> split_ifs <;> rfl

theorem silent_followUp (q : Queue D R P) (id : ℕ) (state : JobState) (after : Job D R P)
    (entry : JobMeta D R P) (clock : Clock) :
    Silent q.store (q.followUp id state after entry clock).2.store := by
  have hstep := q.followUp_followStep id state after entry clock
  generalize (q.followUp id state after entry clock).2 = q' at hstep
  cases hstep with
  | skip => exact Silent.refl _
  | retry opts n _ => exact q.silent_retryJob id opts n clock
  | cleanUp removeOptions => exact q.silent_cleanUpJob id removeOptions clock

theorem chronicled_settle {q : Queue D R P} (h : ∃ log, Chronicled q.store log) (id : ℕ)
    (workerId : Uuid) (state : JobState) (after : Job D R P) (clock : Clock) :
    ∃ log, Chronicled (q.settle id workerId state fun q entry =>
      q.followUp id state after entry clock).2.store log := by
  unfold settle
  cases q.jobsInProgress.get? id with
  | none => exact h
  | some entry =>
    obtain ⟨log, h⟩ := h
    have hfollow := silent_followUp { q with jobsInProgress := q.jobsInProgress.remove id } id state
      after entry clock
    dsimp only
    generalize followUp { q with jobsInProgress := q.jobsInProgress.remove id } id state after entry
      clock = out at hfollow ⊢
    obtain ⟨res, q'⟩ := out
    cases res with
    | error e => exact ⟨log, h.silent hfollow⟩
    | ok u =>
      cases hh : entry.handle with
      | none => exact ⟨log, h.silent hfollow⟩
      | some handle =>
        exact chronicled_updateProcessingCount ⟨log, h.silent hfollow⟩ false workerId id state

theorem chronicled_moveFinished {q : Queue D R P} (h : ∃ log, Chronicled q.store log)
    (job : Job D R P) (token : JobToken) (returned : Except CaughtError R) (clock : Clock) :
    ∃ log, Chronicled (q.moveFinished job token returned clock).2.store log := by
  unfold moveFinished
  cases job.getMetrics with
  | error e => exact h
  | ok metrics =>
    cases returned with
    | ok result =>
      exact chronicled_moveJobToFinishedOrFailed h _ _ _ (.inr (.inl ⟨_, _, rfl, rfl⟩)) _ _
    | error err =>
      exact chronicled_moveJobToFinishedOrFailed h _ _ _ (.inr (.inr ⟨_, rfl, rfl⟩)) _ _

theorem chronicled_processJob {q : Queue D R P} (h : ∃ log, Chronicled q.store log)
    (job : Job D R P) (token : JobToken) (workerId : Uuid) (returned : Except CaughtError R)
    (clock : Clock) :
    ∃ log, Chronicled (q.processJob job token workerId returned clock).2.store log := by
  have hmove := chronicled_moveFinished h job token returned clock
  rw [processJob_eq]
  generalize q.moveFinished job token returned clock = out at hmove ⊢
  obtain ⟨res, q'⟩ := out
  cases res with
  | error e => exact hmove
  | ok done => exact chronicled_settle hmove (job.id.getD 0) workerId done.1 done.2 clock

theorem chronicled_failMissed {q : Queue D R P} (h : ∃ log, Chronicled q.store log)
    (dateTime : Dt) (clock : Clock) (id : ℕ) :
    ∃ log, Chronicled (q.failMissed dateTime clock id).store log := by
  obtain ⟨log, h⟩ := h
  have htoken : Silent q.store (q.store.getToken id clock.instant).2 :=
    (q.store.fewer_getToken id clock.instant).silent rfl
  exact chronicled_moveJobToFinishedOrFailed ⟨log, h.silent htoken⟩ _ _ _
    (.inr (.inr ⟨_, rfl, rfl⟩)) _ _

theorem chronicled_promoteJobs {q : Queue D R P} (h : ∃ log, Chronicled q.store log)
    (c : Collector) (dateTime : Dt) (intervalMs : ℤ) (clock : Clock) :
    ∃ log, Chronicled (q.promoteJobs c dateTime intervalMs clock).2.1.store log := by
  have hfold : ∀ (missed : List ℕ) (q : Queue D R P), (∃ log, Chronicled q.store log) →
      ∃ log, Chronicled
        (missed.foldl (fun q jobId => q.failMissed dateTime clock jobId) q).store log := by
    intro missed
    induction missed with
    | nil => exact fun q h => h
    | cons id missed ih => exact fun q h => ih _ (chronicled_failMissed h dateTime clock id)
  unfold promoteJobs
  split_ifs
  · exact h
  · split
    · exact h
    · next until_ _ =>
      obtain ⟨log, h⟩ := h
      have htake : Silent q.store
          (q.store.getDelayedAt dateTime.timestampMillis until_.timestampMillis).2 :=
        (q.store.fewer_getDelayedAt _ _).silent rfl
      exact hfold _ { q with store := _ } ⟨log, h.silent htake⟩

theorem chronicled_pauseOrResume {q : Queue D R P} (h : ∃ log, Chronicled q.store log) :
    ∃ log, Chronicled q.pauseOrResume.store log := by
  obtain ⟨log, h⟩ := h
  have hpause : ∀ b : Bool, Silent q.store (q.getMetrics.2.store.pause b) :=
    fun b => by cases b <;> exact ⟨rfl, fun _ _ hj => hj, le_rfl⟩
  refine ⟨log, (h.silent (hpause _)).publish .void ?_ rfl⟩
  cases q.getMetrics.1.isPaused <;> rfl

end Queue

/-! ### Runs of the system -/

namespace System

open InMemoryStore

theorem chronicled_dispatch {w : System D R P} (h : ∃ log, Chronicled w.queue.store log)
    (job : Job D R P) (token : JobToken) (opts : WorkerOpts) :
    ∃ log, Chronicled (w.dispatch job token opts).queue.store log := by
  unfold dispatch
  cases job.id with
  | none => exact h
  | some id => exact Queue.chronicled_updateProcessingCount h true token.worker id job.state

theorem chronicled_poll {w : System D R P} (h : ∃ log, Chronicled w.queue.store log)
    (token : JobToken) (opts : WorkerOpts) (clock : Clock) :
    ∃ log, Chronicled (w.poll token opts clock).queue.store log := by
  have hfetch : ∃ log, Chronicled (w.queue.getNextJob token false opts none clock).2.store log := by
    have hmove := Queue.chronicled_moveToActive h token opts clock
    simp only [Queue.getNextJob, Bool.false_eq_true, if_false]
    generalize w.queue.moveToActive token opts clock = out at hmove ⊢
    obtain ⟨res, q⟩ := out
    cases res with
    | error e => exact hmove
    | ok found => cases found <;> exact hmove
  unfold poll
  generalize w.queue.getNextJob token false opts none clock = out at hfetch ⊢
  obtain ⟨res, q⟩ := out
  cases res with
  | error e => exact hfetch
  | ok found =>
    cases found with
    | none => exact hfetch
    | some job => exact chronicled_dispatch (w := { w with queue := q }) hfetch job token opts

theorem chronicled_step {w w' : System D R P} {a : Action D R}
    (hunpaused : w.queue.isPaused = false) (h : ∃ log, Chronicled w.queue.store log)
    (hstep : w.step a = some w') : ∃ log, Chronicled w'.queue.store log := by
  cases a with
  | addBulk items clock =>
    obtain rfl := Option.some.inj hstep
    refine addBulk_keeps (motive := fun s => ∃ log, Chronicled s log) (fun item _ s hs => ?_) h
    rw [hunpaused]
    exact chronicled_addOne hs item w.queue.opts clock
  | pauseOrResume =>
    obtain rfl := Option.some.inj hstep
    exact Queue.chronicled_pauseOrResume h
  | getMetrics =>
    obtain rfl := Option.some.inj hstep
    obtain ⟨log, h⟩ := h
    exact ⟨log, h.silent ⟨rfl, fun _ _ hj => hj, le_rfl⟩⟩
  | poll token opts clock =>
    obtain rfl := Option.some.inj hstep
    exact chronicled_poll h token opts clock
  | storeHandle jobId handle =>
    obtain rfl := Option.some.inj hstep
    exact h
  | finish i returned clock =>
    obtain ⟨task, -, rfl⟩ := Option.map_eq_some_iff.mp hstep
    exact Queue.chronicled_processJob h task.job task.token task.token.worker returned clock
  | registerTimer timer =>
    simp only [step] at hstep
    split at hstep
    · cases hstep
    · obtain rfl := Option.some.inj hstep
      exact h
  | promote dateTime intervalMs clock =>
    obtain rfl := Option.some.inj hstep
    exact Queue.chronicled_promoteJobs h w.collector dateTime intervalMs clock
  | expire i =>
    obtain ⟨c, -, rfl⟩ := Option.map_eq_some_iff.mp hstep
    exact h
  | deliver i =>
    simp only [step] at hstep
    split at hstep
    · next jobId _ _ =>
      obtain rfl := Option.some.inj hstep
      obtain ⟨log, h⟩ := h
      exact ⟨log, h.silent (w.queue.store.silent_addItem .wait jobId none true)⟩
    · cases hstep

theorem chronicled_init (keyPrefix : Option String) (name : String) (opts : Option QueueOpts)
    (id : Uuid) (backoff : BackOff) :
    Chronicled (init keyPrefix name opts id backoff : System D R P).queue.store [] :=
  ⟨rfl, .nil fun _ => rfl, fun _ _ => rfl, fun _ _ => rfl⟩

/-- Along every run no event makes the listener panic, each report about a job goes on from
the reports before it, and the last one tells the recorded state of the job. -/
theorem events_tell_states (keyPrefix : Option String) (name : String) (opts : Option QueueOpts)
    (id : Uuid) (backoff : BackOff) (actions : List (Action D R)) :
    Always step (fun w : System D R P => w.queue.store.Told)
      (init keyPrefix name opts id backoff) actions := by
  have hstep : ∀ (w : System D R P) a w', Inv w [] ∧ (∃ log, Chronicled w.queue.store log) →
      step w a = some w' → Inv w' [] ∧ ∃ log, Chronicled w'.queue.store log := by
    rintro w a w' ⟨hinv, h⟩ hs
    exact ⟨(step_tracks hinv hs).inv, chronicled_step hinv.unpaused h hs⟩
  refine always_of_invariant_all hstep ?_ ⟨init_inv keyPrefix name opts id backoff,
    ⟨[], chronicled_init keyPrefix name opts id backoff⟩⟩ actions
  rintro w ⟨-, log, h⟩
  exact h.told

end System

end Kiomq
