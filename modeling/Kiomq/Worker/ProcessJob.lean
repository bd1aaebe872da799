import Kiomq.Timers.Collector

/-!
# The worker side: fetching, finishing and promoting jobs

`getNextJob` and `processJob` are the two ends of one iteration of `main_loop`; the
outcome of the user's callback is an argument of `processJob`. `promoteJobs` hands
the due delayed jobs to the timers and fails the ones that missed their deadline,
one after the other.
-/

namespace Kiomq

open Foundations

/-- How a callback can fail; a backtrace is a list of rendered frames. -/
inductive CaughtError
  | panic (payload : String) (backtrace : Option (List String))
  | error (message : String) (backtrace : Option (List String))
  | joinError (message : String)
  deriving DecidableEq, Repr

namespace CaughtError

def reason : CaughtError → String
  | panic payload _ => payload
  | error message _ => message
  | joinError message => message

def backtrace : CaughtError → Option (List String)
  | panic _ frames => frames
  | error _ frames => frames
  | joinError _ => none

end CaughtError

namespace Queue

variable {D R P : Type}

def getNextJob (q : Queue D R P) (token : JobToken) (closed : Bool) (opts : WorkerOpts)
    (passedId : Option ℕ) (clock : Clock) : KioResult (Option (Job D R P)) × Queue D R P :=
  if closed then (.ok none, q)
  else
    match passedId with
    | some jobId =>
      let out := q.prepareJobForProcessing token jobId (castUnsigned clock.utc.timestampMicros)
        opts .wait clock
      (out.1.map some, out.2)
    | none =>
      match q.moveToActive token opts clock with
      | (.error e, q) => (.error e, q)
      | (.ok (.processJob job), q) => (.ok (some job), q)
      | (.ok _, q) => (.ok none, q)

def runMetrics (job : Job D R P) (metrics : JobMetrics) (now : Dt) : JobMetrics :=
  let metrics := { metrics with attempt := job.attemptsMade + 1 }
  match job.processedOn with
  | some processedAt =>
    { metrics with
      id := job.id.getD 0
      delayedFor := (processedAt - job.ts).toNat
      ranFor := (now - processedAt).toNat }
  | none => metrics

/-- The end of a task: the counter is lowered only if a handle was found. -/
def releaseTask (q : Queue D R P) (handle : Option ℕ) (workerId : Uuid) (jobId : ℕ)
    (state : JobState) : Queue D R P :=
  match handle with
  | some _ => (q.updateProcessingCount false workerId jobId state).2
  | none => q

/-- After a success: repeat while attempts are left, else apply the retention policy. -/
def repeatOrCleanUp (q : Queue D R P) (jobId : ℕ) (completed : Job D R P)
    (entry : JobMeta D R P) (clock : Clock) : KioResult Unit × Queue D R P :=
  if completed.attemptsMade < entry.job.opts.attempts then
    match completed.opts.repeat_ with
    | some repeatOpts =>
      q.retryJob jobId (.withRepeat repeatOpts) (predU64 completed.attemptsMade) clock
    | none => (.ok (), q)
  else (.ok (), q.cleanUpJob jobId entry.job.opts.removeOnComplete clock)

/-- After a failure: retry while attempts are left, then apply the retention policy if
exactly the allowed number of attempts was made. -/
def retryOrCleanUp (q : Queue D R P) (jobId : ℕ) (failedJob : Job D R P)
    (entry : JobMeta D R P) (clock : Clock) : KioResult Unit × Queue D R P :=
  let retried : KioResult Unit × Queue D R P :=
    if failedJob.attemptsMade < entry.job.opts.attempts then
      match entry.job.opts.backoff with
      | some backoffJobOpts =>
        q.retryJob jobId (.failed backoffJobOpts) (predU64 failedJob.attemptsMade) clock
      | none => (.ok (), q)
    else (.ok (), q)
  match retried with
  | (.error e, q) => (.error e, q)
  | (.ok _, q) =>
    if failedJob.attemptsMade = entry.job.opts.attempts then
      (.ok (), q.cleanUpJob jobId entry.job.opts.removeOnFail clock)
    else (.ok (), q)

/-- Take the job out of the map of jobs in progress, decide what follows, release. -/
def settle (q : Queue D R P) (jobId : ℕ) (workerId : Uuid) (state : JobState)
    (follow : Queue D R P → JobMeta D R P → KioResult Unit × Queue D R P) :
    KioResult Unit × Queue D R P :=
  match q.jobsInProgress.get? jobId with
  | none => (.ok (), q)
  | some entry =>
    match follow { q with jobsInProgress := q.jobsInProgress.remove jobId } entry with
    | (.error e, q) => (.error e, q)
    | (.ok _, q) => (.ok (), q.releaseTask entry.handle workerId jobId state)

def failureDetails (job : Job D R P) (err : CaughtError) : FailedDetails × Option Trace :=
  let run := job.attemptsMade + 1
  (⟨run, err.reason⟩, err.backtrace.map fun frames => ⟨run, err.reason, frames⟩)

def processJob (q : Queue D R P) (job : Job D R P) (token : JobToken) (workerId : Uuid)
    (returned : Except CaughtError R) (clock : Clock) : KioResult Unit × Queue D R P :=
  let jobId := job.id.getD 0
  let ts := clock.utc.timestampMicros
  match job.getMetrics with
  | .error e => (.error e, q)
  | .ok metrics =>
    match returned with
    | .ok result =>
      let success := ProcessedResult.success result (runMetrics job metrics clock.utc)
      match q.moveJobToFinishedOrFailed jobId ts token .completed success none clock with
      | (.error e, q) => (.error e, q)
      | (.ok completed, q) =>
        q.settle jobId workerId .completed fun q entry =>
          q.repeatOrCleanUp jobId completed entry clock
    | .error err =>
      let details := failureDetails job err
      match q.moveJobToFinishedOrFailed jobId ts token .failed (.failed details.1) details.2
        clock with
      | (.error e, q) => (.error e, q)
      | (.ok failedJob, q) =>
        q.settle jobId workerId .failed fun q entry =>
          q.retryOrCleanUp jobId failedJob entry clock

/-! ### Promotion of delayed jobs -/

def missedDelayDeadline : String := "Job has missed delay deadline"

/-- Fail one job that missed its deadline; an error is ignored by the caller. -/
def failMissed (q : Queue D R P) (dateTime : Dt) (clock : Clock) (jobId : ℕ) : Queue D R P :=
  let attempts := (q.store.getCounter (.job jobId) (some .attemptsMade)).getD 0
  let token := q.store.getToken jobId clock.instant
  let reason : FailedDetails := ⟨attempts, missedDelayDeadline⟩
  (moveJobToFinishedOrFailed { q with store := token.2 } jobId dateTime.timestampMicros
    (token.1.getD ⟨0, 0, 0⟩) .failed (.failed reason) none clock).2

def sendPromotions (queueId : Uuid) (c : Collector) (jobs : List ℕ) : Collector :=
  jobs.foldl (fun c jobId => c.send queueId (.promotedDelayed jobId queueId)) c

def promoteJobs (q : Queue D R P) (c : Collector) (dateTime : Dt) (intervalMs : ℤ)
    (clock : Clock) : KioResult Unit × Queue D R P × Collector :=
  if !q.currentMetrics.hasDelayed then (.ok (), q, c)
  else
    match dateTime.addMillis intervalMs with
    | .error e => (.error e, q, c)
    | .ok until_ =>
      let taken := q.store.getDelayedAt dateTime.timestampMillis until_.timestampMillis
      let c := sendPromotions q.id c taken.1.1
      let q := { q with store := taken.2 }
      (.ok (), taken.1.2.foldl (fun q jobId => q.failMissed dateTime clock jobId) q, c)

/-- The timer task of the queue on a promotion: the job is added to the wait list,
whichever queue the timer was made for. -/
def processPromoted (q : Queue D R P) (jobId : ℕ) : Queue D R P :=
  { q with store := q.store.addItem .wait jobId none true }

end Queue

end Kiomq
