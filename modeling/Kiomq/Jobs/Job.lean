import Kiomq.Jobs.Schedule

/-!
# Jobs, their options and the records kept about them

The types of `job/mod.rs` and of the parts of `queue/options.rs` that describe one
job. The payload types `D`, `R` and `P` stay parameters. Identifiers and counters
that only ever grow by one are naturals.
-/

namespace Kiomq

abbrev Uuid := ℕ

inductive JobState
  | wait
  | prioritized
  | stalled
  | active
  | paused
  | resumed
  | completed
  | failed
  | delayed
  | progress
  | obliterated
  | processing
  deriving DecidableEq, Repr

instance : Inhabited JobState := ⟨.wait⟩

structure KeepJobs where
  age : Option ℤ
  count : Option ℤ
  deriving DecidableEq, Repr

/-- Whether, and how many, completed or failed job records are kept. -/
inductive RemoveOnCompletionOrFailure
  | bool (removeImmediately : Bool)
  | int (maxToKeep : ℤ)
  | opts (keep : KeepJobs)
  deriving DecidableEq, Repr

structure JobOptions where
  priority : ℕ := 0
  delay : JobDelay := default
  id : Option ℕ := none
  attempts : ℕ := 0
  removeOnComplete : Option RemoveOnCompletionOrFailure := none
  removeOnFail : Option RemoveOnCompletionOrFailure := none
  backoff : Option BackOffJobOptions := none
  repeat_ : Option Repeat := none

inductive QueueEventMode
  | pubSub
  | stream
  deriving DecidableEq, Repr

structure QueueOpts where
  removeOnFail : Option RemoveOnCompletionOrFailure := none
  removeOnComplete : Option RemoveOnCompletionOrFailure := none
  attempts : ℕ := 1
  defaultBackoff : Option BackOffJobOptions := none
  eventMode : Option QueueEventMode := some .stream
  repeat_ : Option Repeat := none

/-- Fill the fields that a job leaves open from the options of the queue. -/
def updateJobOpts (queueOpts : QueueOpts) (opts : JobOptions) : JobOptions :=
  { opts with
    removeOnComplete := opts.removeOnComplete.orElse fun _ => queueOpts.removeOnComplete
    removeOnFail := opts.removeOnFail.orElse fun _ => queueOpts.removeOnFail
    attempts := if opts.attempts < queueOpts.attempts then queueOpts.attempts else opts.attempts
    backoff := opts.backoff.orElse fun _ => queueOpts.defaultBackoff
    repeat_ := opts.repeat_.orElse fun _ => queueOpts.repeat_ }

structure Trace where
  run : ℕ
  reason : String
  frames : List String
  deriving DecidableEq, Repr

structure FailedDetails where
  run : ℕ
  reason : String
  deriving DecidableEq, Repr

/-- Lock token: the worker, a fresh identifier and the worker's job count. -/
structure JobToken where
  worker : Uuid
  nonce : Uuid
  count : ℕ
  deriving DecidableEq, Repr

/-- Timing statistics of a run; durations are in microseconds. -/
structure JobMetrics where
  ranFor : ℕ := 0
  delayedFor : ℕ := 0
  attempt : ℕ := 0
  delay : ℕ := 0
  id : ℕ := 0
  deriving DecidableEq, Repr

structure Job (D R P : Type) where
  id : Option ℕ
  ts : Dt
  name : String
  state : JobState
  progress : Option P
  attemptsMade : ℕ
  opts : JobOptions
  delay : ℕ
  data : Option D
  returnedValue : Option R
  stackTrace : List Trace
  failedReason : Option FailedDetails
  processedOn : Option Dt
  finishedOn : Option Dt
  queueName : Option String
  token : Option JobToken
  stalledCounter : ℕ
  logs : List String
  priority : ℕ

namespace Job

variable {D R P : Type}

def new (name : String) (data : Option D) (id : Option ℕ) (queueName : Option String) (ts : Dt) :
    Job D R P :=
  { opts := {}, queueName, name, id, ts, data, returnedValue := none, progress := none
    processedOn := none, finishedOn := none, state := default, delay := 0, attemptsMade := 0
    stackTrace := [], failedReason := none, token := none, stalledCounter := 0, logs := []
    priority := 0 }

/-- Apply the options; the delay is measured from the creation of the job. -/
def addOpts (job : Job D R P) (opts : JobOptions) : KioResult (Job D R P) :=
  (opts.delay.asDiffMs job.ts).map fun ms =>
    { job with priority := opts.priority, delay := castUnsigned ms, opts }

def getMetrics (job : Job D R P) : KioResult JobMetrics :=
  (job.opts.delay.asDiffMs job.ts).map fun ms =>
    { ranFor := (job.finishedOn.getD 0 - job.processedOn.getD 0).toNat
      delayedFor := (job.processedOn.getD 0 - job.ts).toNat
      attempt := job.attemptsMade
      delay := castUnsigned ms
      id := job.id.getD 0 }

theorem addOpts_eq {job : Job D R P} {opts : JobOptions} {ms : ℤ}
    (h : opts.delay.asDiffMs job.ts = .ok ms) :
    job.addOpts opts =
      .ok { job with priority := opts.priority, delay := castUnsigned ms, opts } := by
  rw [addOpts, h]
  rfl

theorem addOpts_spec {job job' : Job D R P} {opts : JobOptions} (h : job.addOpts opts = .ok job') :
    job'.opts = opts ∧ job'.attemptsMade = job.attemptsMade ∧ job'.state = job.state := by
  unfold addOpts at h
  cases hd : opts.delay.asDiffMs job.ts with
  | error e => simp [hd, Except.map] at h
  | ok ms =>
    simp only [hd, Except.map, Except.ok.injEq] at h
    subst h
    exact ⟨rfl, rfl, rfl⟩

end Job

inductive ProcessedResult (R : Type)
  | failed (details : FailedDetails)
  | success (value : R) (metrics : JobMetrics)

/-- A typed field update applied to a job record. -/
inductive JobField (R : Type)
  | token (token : JobToken)
  | payload (result : ProcessedResult R)
  | processedOn (ts : ℕ)
  | finishedOn (ts : ℕ)
  | state (state : JobState)
  | backTrace (trace : Trace)

/-- Writing one field, as `set_fields` does for each of its updates. -/
def Job.setField {D R P : Type} (job : Job D R P) : JobField R → Job D R P
  | .backTrace trace => { job with stackTrace := job.stackTrace ++ [trace] }
  | .state state => { job with state }
  | .processedOn ts => { job with processedOn := Dt.fromTimestampMicros (castSigned ts) }
  | .finishedOn ts => { job with finishedOn := Dt.fromTimestampMicros (castSigned ts) }
  | .token token => { job with token := some token }
  | .payload (.failed details) => { job with failedReason := some details }
  | .payload (.success value _) => { job with returnedValue := some value }

/-- An event published by the queue; the stream identifier is assigned on delivery. -/
structure QueueStreamEvent (R P : Type) where
  priority : Option ℕ := none
  event : JobState := default
  delay : Option ℕ := none
  prev : Option JobState := none
  jobId : ℕ := 0
  returnedValue : Option R := none
  failedReason : Option FailedDetails := none
  progressData : Option P := none
  name : Option String := none
  workerId : Option Uuid := none
  metrics : Option JobMetrics := none

end Kiomq
