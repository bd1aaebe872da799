import Kiomq.Stores.Insertion

/-!
# Queue operations over the in-memory store

A `Queue` owns its store, the map of jobs in progress and the backoff registry. The
cached metrics and the worker signal are the cells it shares with the store, so they
are read from there. Functions that can fail return the error next to the state they
leave behind: an early return keeps every effect made before it.
-/

namespace Kiomq

open Foundations

structure WorkerOpts where
  stalledInterval : ℕ := 30000
  lockDuration : ℕ := 30000
  lockRenewTime : ℕ := 15000
  maxStalledCount : ℕ := 1
  concurrency : ℕ := 1
  autorun : Bool := false
  metricsUpdateInterval : ℕ := 100
  deriving DecidableEq, Repr

/-- The entry of a job in progress; the handle is stored after the task is spawned. -/
structure JobMeta (D R P : Type) where
  job : Job D R P
  token : JobToken
  handle : Option ℕ
  opts : WorkerOpts

structure Queue (D R P : Type) where
  id : Uuid
  opts : QueueOpts
  paused : Bool
  store : InMemoryStore D R P
  jobsInProgress : OrderedMap ℕ (JobMeta D R P)
  backoff : BackOff

inductive MoveToActiveResult (D R P : Type)
  | paused
  | rateLimit (ms : ℕ)
  | delayUntil (ts : ℕ)
  | processJob (job : Job D R P)

inductive RetryOptions
  | failed (opts : BackOffJobOptions)
  | withRepeat (r : Repeat)

namespace Queue

variable {D R P : Type}

/-- Open a queue: the cached metrics, pause flag included, are a snapshot of the store. -/
def new (store : InMemoryStore D R P) (queueOpts : Option QueueOpts) (id : Uuid) : Queue D R P :=
  { id
    opts := queueOpts.getD {}
    paused := store.isPaused
    store :=
      { store with
        storedMetrics := store.getMetrics
        signal := ⟨false, store.signal.isInitial⟩
        events := [] }
    jobsInProgress := .empty
    backoff := .new }

def currentMetrics (q : Queue D R P) : QueueMetrics := q.store.storedMetrics

def isPaused (q : Queue D R P) : Bool := q.currentMetrics.queueIsPaused

/-- A fresh snapshot, which also refreshes the cached metrics. -/
def getMetrics (q : Queue D R P) : QueueMetrics × Queue D R P :=
  let updated := q.store.getMetrics
  (updated, { q with store := { q.store with storedMetrics := q.currentMetrics.update updated } })

def bulkAdd (q : Queue D R P) (items : List (InMemoryStore.NewJob D)) (clock : Clock) :
    KioResult (List (Job D R P)) × Queue D R P :=
  let out := q.store.addBulk items q.opts q.isPaused clock
  (out.1, { q with store := out.2 })

/-! ### State transitions -/

/-- The collections after a transition. A finished job leaves the collection of its
recorded state and enters a scored one; otherwise the job is moved only if the target
does not hold it yet. -/
def relocate (s : InMemoryStore D R P) (jobId : ℕ) (prev next : JobState) (ts : Option ℤ)
    (clock : Clock) : InMemoryStore D R P :=
  let previousSuffix := CollectionSuffix.ofJobState prev
  let nextSuffix := CollectionSuffix.ofJobState next
  if next = .failed ∨ next = .completed then
    let s := (s.incr (.job jobId) 1 (some .attemptsMade)).2
    let score := ts.getD clock.utc.timestampMicros
    (s.removeItem previousSuffix jobId).addItem nextSuffix jobId (some score) false
  else
    let found := s.existsIn nextSuffix jobId clock.instant
    if found.1 then found.2
    else (found.2.removeItem previousSuffix jobId).addItem nextSuffix jobId none false

def transitionFields (next : JobState) (value : Option (ProcessedResult R)) (ts : Option ℤ)
    (backtrace : Option Trace) : List (JobField R) :=
  [.state next] ++ (backtrace.map JobField.backTrace).toList ++
    value.elim [] fun rec =>
      .payload rec :: (ts.map fun t => JobField.finishedOn t.natAbs).toList

def transitionEvent (jobId : ℕ) (prev next : JobState) (value : Option (ProcessedResult R)) :
    QueueStreamEvent R P :=
  let event : QueueStreamEvent R P := { event := next, prev := some prev, jobId }
  match value with
  | some (.failed details) => { event with failedReason := some details }
  | some (.success value metrics) =>
    { event with returnedValue := some value, metrics := some metrics }
  | none => event

def moveJobToState (q : Queue D R P) (jobId : ℕ) (prev next : JobState)
    (value : Option (ProcessedResult R)) (ts : Option ℤ) (backtrace : Option Trace)
    (clock : Clock) : KioResult Unit × Queue D R P :=
  if q.isPaused then (.ok (), q)
  else if !q.store.jobExists jobId then (.error .jobNotFound, q)
  else
    let s := relocate q.store jobId prev next ts clock
    let s := s.setFields jobId (transitionFields next value ts backtrace)
    (.ok (), { q with store := s.publishEvent (transitionEvent jobId prev next value) })

/-- Toggle the pause; the direction is decided on the flag of the store. -/
def pauseOrResume (q : Queue D R P) : Queue D R P :=
  let metrics := q.getMetrics
  let pause := !metrics.1.isPaused
  let s := metrics.2.store.pause pause
  let event : QueueStreamEvent R P := { event := if pause then .paused else .resumed }
  { metrics.2 with paused := pause, store := s.publishEvent event }

def getTargetList (q : Queue D R P) : Bool × JobState :=
  if q.isPaused then (true, .paused) else (false, .wait)

/-- Lock the job, mark it active and read it back. -/
def prepareJobForProcessing (q : Queue D R P) (token : JobToken) (jobId ts : ℕ)
    (opts : WorkerOpts) (prevState : JobState) (clock : Clock) :
    KioResult (Job D R P) × Queue D R P :=
  let s := q.store.setLock (.lock jobId) (some token) opts.lockDuration clock.instant
  match moveJobToState { q with store := s } jobId prevState .active none none none clock with
  | (.error e, q) => (.error e, q)
  | (.ok _, q) =>
    let q := { q with store := q.store.setFields jobId [.token token, .processedOn ts] }
    match q.store.getJob jobId with
    | some job => (.ok job, q)
    | none => (.error .jobNotFound, q)

/-- The job with the least score, moved to the active list. -/
def moveJobFromPriortyToActive (q : Queue D R P) : Option ℕ × Queue D R P :=
  match q.store.popSet .prioritized true with
  | ((jobId, _) :: _, s) => (some jobId, { q with store := s.addItem .active jobId none true })
  | ([], s) => (none, { q with store := s.remove .priorityCounter })

/-- Prepare a popped id; its previous state is the recorded one, `wait` by default. -/
def prepareJob (q : Queue D R P) (token : JobToken) (opts : WorkerOpts) (id : ℕ) (clock : Clock) :
    KioResult (Job D R P) × Queue D R P :=
  q.prepareJobForProcessing token id (castUnsigned clock.utc.timestampMicros) opts
    ((q.store.getState id).getD default) clock

def moveToActive (q : Queue D R P) (token : JobToken) (opts : WorkerOpts) (clock : Clock) :
    KioResult (MoveToActiveResult D R P) × Queue D R P :=
  match q.store.popBackPushFront .wait .active with
  | (some jobId, s) =>
    let out := prepareJob { q with store := s } token opts jobId clock
    (out.1.map .processJob, out.2)
  | (none, s) =>
    match moveJobFromPriortyToActive { q with store := s } with
    | (some id, q) =>
      let out := q.prepareJob token opts id clock
      (out.1.map .processJob, out.2)
    | (none, q) => (.ok (.delayUntil (1 / 0x1000)), q)

/-- Finish a job. The token is not looked at. -/
def moveJobToFinishedOrFailed (q : Queue D R P) (jobId : ℕ) (ts : ℤ) (_token : JobToken)
    (moveToState : JobState) (processed : ProcessedResult R) (backtrace : Option Trace)
    (clock : Clock) : KioResult (Job D R P) × Queue D R P :=
  let prevState := (q.store.getState jobId).getD default
  match q.moveJobToState jobId prevState moveToState (some processed) (some ts) backtrace clock with
  | (.error e, q) => (.error e, q)
  | (.ok _, q) =>
    match q.store.getJob jobId with
    | some job => (.ok job, q)
    | none => (.error .jobNotFound, q)

theorem moveJobToFinishedOrFailed_snd (q : Queue D R P) (jobId : ℕ) (ts : ℤ) (token : JobToken)
    (next : JobState) (processed : ProcessedResult R) (backtrace : Option Trace) (clock : Clock) :
    (q.moveJobToFinishedOrFailed jobId ts token next processed backtrace clock).2 =
      (q.moveJobToState jobId ((q.store.getState jobId).getD default) next (some processed)
        (some ts) backtrace clock).2 := by
  unfold moveJobToFinishedOrFailed
  dsimp only
  split
  · next heq => rw [heq]
  · next heq =>
    rw [heq]
    split <;> rfl

/-! ### Retry, repeat and retention -/

def calculateNextDelayMs (q : Queue D R P) (backoffJobOpts : BackOffJobOptions) (attempts : ℤ) :
    Option ℤ :=
  (BackOff.normalize (some backoffJobOpts)).bind fun opts =>
    q.backoff.calculate (some opts) attempts none

def retryFailed (q : Queue D R P) (jobId : ℕ) (backoffJobOpts : BackOffJobOptions) (attempts : ℕ)
    (clock : Clock) : KioResult Unit × Queue D R P :=
  match q.calculateNextDelayMs backoffJobOpts (castSigned attempts) with
  | none => (.ok (), q)
  | some nextDelay =>
    match clock.utc.addMillis nextDelay with
    | .error e => (.error e, q)
    | .ok activeTime =>
      let s := q.store.addItem .delayed jobId (some activeTime.timestampMillis) false
      (.ok (), { q with store := s.removeItem .failed jobId })

def retryJob (q : Queue D R P) (jobId : ℕ) (opts : RetryOptions) (attempts : ℕ) (clock : Clock) :
    KioResult Unit × Queue D R P :=
  match opts with
  | .failed backoffJobOpts => q.retryFailed jobId backoffJobOpts attempts clock
  | .withRepeat r =>
    match r.nextOccurrence q.backoff attempts clock.utc with
    | .error e => (.error e, q)
    | .ok none => (.ok (), q)
    | .ok (some next) =>
      if next = 0 then (.ok (), { q with store := q.store.addItem .wait jobId none true })
      else (.ok (), { q with store := q.store.addItem .delayed jobId (some next) true })

/-- Count-based retention compares the id of the job with the number to keep. -/
def exceedsCount (jobId : ℕ) (maxToKeep : ℤ) : Bool :=
  decide (0 < maxToKeep ∧ maxToKeep < (if jobId < 2 ^ 63 then (jobId : ℤ) else 2 ^ 63 - 1))

def cleanUpJob (q : Queue D R P) (jobId : ℕ)
    (removeOptions : Option RemoveOnCompletionOrFailure) (clock : Clock) : Queue D R P :=
  match removeOptions with
  | none => q
  | some (.bool removeImmediately) =>
    if removeImmediately then { q with store := q.store.remove (.job jobId) } else q
  | some (.int maxToKeep) =>
    if exceedsCount jobId maxToKeep then { q with store := q.store.remove (.job jobId) } else q
  | some (.opts keep) =>
    let s := keep.age.elim q.store fun secs => q.store.expire (.job jobId) secs clock.instant
    if keep.count.any (exceedsCount jobId) then { q with store := s.remove (.job jobId) }
    else { q with store := s }

def updateProcessingCount (q : Queue D R P) (increment : Bool) (workerId : Uuid) (jobId : ℕ)
    (state : JobState) : ℕ × Queue D R P :=
  let s := (q.store.incr .metaKey (if increment then 1 else -1) (some .processing)).2
  let s := s.publishEvent
    { jobId, event := .processing, prev := some state, workerId := some workerId }
  ((s.getCounter .metaKey (some .processing)).getD 0, { q with store := s })

end Queue

end Kiomq
