import Kiomq.Stores.Interface
import Kiomq.Worker.FollowUp

/-!
# The queue over any store

`Queue` is generic in its store. Its methods are given here as procedures over the
interface of a store, in the order in which the source makes the calls. Run on the
in-memory store, each of them is the operation of `Queue` that has the same name.
-/

namespace Kiomq

open Foundations

variable {D R P : Type}

/-- What the methods of a queue read besides the store: the cached pause flag, the event
mode and the backoff registry. -/
structure GenericQueue where
  isPaused : Bool
  eventMode : QueueEventMode
  backoff : BackOff

def liftKio {α : Type} : KioResult α → StoreM D R P α
  | .ok a => pure a
  | .error e => throw (.kio e)

def KioResult.toStore {α : Type} : KioResult α → StoreResult α
  | .ok a => .ok a
  | .error e => .error (.kio e)

namespace GenericQueue

/-! ### State transitions -/

def relocate (jobId : ℕ) (prev next : JobState) (ts : Option ℤ) (clock : Clock) :
    StoreM D R P Unit :=
  let previousSuffix := CollectionSuffix.ofJobState prev
  let nextSuffix := CollectionSuffix.ofJobState next
  if next = .failed ∨ next = .completed then do
    let _ ← Store.incr (.job jobId) 1 (some .attemptsMade)
    Store.removeItem previousSuffix jobId
    Store.addItem nextSuffix jobId (some (ts.getD clock.utc.timestampMicros)) false
  else do
    let existsInList ← Store.existsIn nextSuffix jobId
    if existsInList then pure ()
    else do
      Store.removeItem previousSuffix jobId
      Store.addItem nextSuffix jobId none false

def moveJobToState (g : GenericQueue) (jobId : ℕ) (prev next : JobState)
    (value : Option (ProcessedResult R)) (ts : Option ℤ) (backtrace : Option Trace)
    (clock : Clock) : StoreM D R P Unit :=
  if g.isPaused then pure ()
  else do
    let jobExists ← Store.jobExists jobId
    if !jobExists then throw (.kio .jobNotFound)
    else do
      relocate jobId prev next ts clock
      Store.setFields jobId (Queue.transitionFields next value ts backtrace)
      Store.publishEvent g.eventMode (Queue.transitionEvent jobId prev next value)

def requireJob (jobId : ℕ) : StoreM D R P (Job D R P) := do
  let job ← Store.getJob jobId
  match job with
  | some job => pure job
  | none => throw (.kio .jobNotFound)

def prepareJobForProcessing (g : GenericQueue) (token : JobToken) (jobId ts : ℕ)
    (opts : WorkerOpts) (prevState : JobState) (clock : Clock) : StoreM D R P (Job D R P) := do
  Store.setLock (.lock jobId) (some token) opts.lockDuration
  g.moveJobToState jobId prevState .active none none none clock
  Store.setFields jobId [.token token, .processedOn ts]
  requireJob jobId

def moveJobFromPriortyToActive : StoreM D R P (Option ℕ) := do
  let minPriorityJob ← Store.popSet .prioritized true
  match minPriorityJob with
  | (jobId, _) :: _ => do
    Store.addItem .active jobId none true
    pure (some jobId)
  | [] => do
    Store.remove .priorityCounter
    pure none

def prepareJob (g : GenericQueue) (token : JobToken) (opts : WorkerOpts) (jobId : ℕ)
    (clock : Clock) : StoreM D R P (Job D R P) := do
  let prevState ← Store.getState jobId
  g.prepareJobForProcessing token jobId (castUnsigned clock.utc.timestampMicros) opts
    (prevState.getD default) clock

def moveToActive (g : GenericQueue) (token : JobToken) (opts : WorkerOpts) (clock : Clock) :
    StoreM D R P (MoveToActiveResult D R P) := do
  let jobId ← Store.popBackPushFront .wait .active
  match jobId with
  | some jobId => do
    let job ← g.prepareJob token opts jobId clock
    pure (.processJob job)
  | none => do
    let prioritized ← moveJobFromPriortyToActive
    match prioritized with
    | some jobId => do
      let job ← g.prepareJob token opts jobId clock
      pure (.processJob job)
    | none => pure (.delayUntil (1 / 0x1000))

/-- Finish a job. The token is not looked at. -/
def moveJobToFinishedOrFailed (g : GenericQueue) (jobId : ℕ) (ts : ℤ) (_token : JobToken)
    (moveToState : JobState) (processed : ProcessedResult R) (backtrace : Option Trace)
    (clock : Clock) : StoreM D R P (Job D R P) := do
  let prevState ← Store.getState jobId
  g.moveJobToState jobId (prevState.getD default) moveToState (some processed) (some ts) backtrace
    clock
  requireJob jobId

/-! ### Retry, repeat and retention -/

def retryFailed (g : GenericQueue) (jobId : ℕ) (backoffJobOpts : BackOffJobOptions)
    (attempts : ℕ) (clock : Clock) : StoreM D R P Unit :=
  let nextDelay := (BackOff.normalize (some backoffJobOpts)).bind fun opts =>
    g.backoff.calculate (some opts) (castSigned attempts) none
  match nextDelay with
  | none => pure ()
  | some nextDelay => do
    let activeTime ← liftKio (clock.utc.addMillis nextDelay)
    Store.addItem .delayed jobId (some activeTime.timestampMillis) false
    Store.removeItem .failed jobId

def retryJob (g : GenericQueue) (jobId : ℕ) (opts : RetryOptions) (attempts : ℕ)
    (clock : Clock) : StoreM D R P Unit :=
  match opts with
  | .failed backoffJobOpts => g.retryFailed jobId backoffJobOpts attempts clock
  | .withRepeat r => do
    let next ← liftKio (r.nextOccurrence g.backoff attempts clock.utc)
    match next with
    | none => pure ()
    | some next =>
      if next = 0 then Store.addItem .wait jobId none true
      else Store.addItem .delayed jobId (some next) true

def expireAfter (jobId : ℕ) (age : Option ℤ) : StoreM D R P Unit :=
  match age with
  | some secs => Store.expire (.job jobId) secs
  | none => pure ()

def cleanUpJob (jobId : ℕ) (removeOptions : Option RemoveOnCompletionOrFailure) :
    StoreM D R P Unit :=
  match removeOptions with
  | none => pure ()
  | some (.bool removeImmediately) =>
    if removeImmediately then Store.remove (.job jobId) else pure ()
  | some (.int maxToKeep) =>
    if Queue.exceedsCount jobId maxToKeep then Store.remove (.job jobId) else pure ()
  | some (.opts keep) => do
    expireAfter jobId keep.age
    if keep.count.any (Queue.exceedsCount jobId) then Store.remove (.job jobId) else pure ()

def updateProcessingCount (g : GenericQueue) (increment : Bool) (workerId : Uuid) (jobId : ℕ)
    (state : JobState) : StoreM D R P ℕ := do
  let _ ← Store.incr .metaKey (if increment then 1 else -1) (some .processing)
  Store.publishEvent g.eventMode
    { jobId, event := .processing, prev := some state, workerId := some workerId }
  Store.getCounter .metaKey (some .processing)

/-! ### Locks and stalled jobs -/

def extendLock (jobId lockDuration : ℕ) (token : JobToken) : StoreM D R P Bool := do
  let previous ← Store.getToken jobId
  if previous = some token then do
    Store.setLock (.lock jobId) (some token) lockDuration
    Store.removeItem .stalled jobId
    pure true
  else pure false

def recoverStalled (g : GenericQueue) (opts : WorkerOpts) (target : JobState) (jobId : ℕ)
    (clock : Clock) : StoreM D R P (Option Bool) := do
  let lockExists ← Store.existsIn (.lock jobId) jobId
  if lockExists then do
    let stalledCount ← Store.incr (.job jobId) 1 (some .stalledCounter)
    let attemptsMade ← Store.getCounter (.job jobId) (some .attemptsMadeSnake)
    let prev ← Store.getState jobId
    if opts.maxStalledCount < stalledCount then do
      let failedReason : FailedDetails :=
        { run := attemptsMade + 1, reason := "job stalled more than allowable limit" }
      g.moveJobToState jobId (prev.getD default) .failed (some (.failed failedReason)) none none
        clock
      pure (some true)
    else do
      g.moveJobToState jobId .active target none none none clock
      pure (some false)
  else pure none

/-- The loop over the marked jobs; the answer lists the failed and the recovered ids. -/
def recoverAllStalled (g : GenericQueue) (opts : WorkerOpts) (target : JobState)
    (clock : Clock) : List ℕ → StoreM D R P (List ℕ × List ℕ)
  | [] => pure ([], [])
  | jobId :: ids => do
    let moved ← g.recoverStalled opts target jobId clock
    let rest ← g.recoverAllStalled opts target clock ids
    match moved with
    | some true => pure (jobId :: rest.1, rest.2)
    | some false => pure (rest.1, jobId :: rest.2)
    | none => pure rest

def markStalled : List ℕ → StoreM D R P Unit
  | [] => pure ()
  | jobId :: ids => do
    let lockExists ← Store.existsIn (.lock jobId) jobId
    if lockExists then markStalled ids
    else do
      Store.addItem .stalled jobId none true
      Store.removeItem .active jobId
      markStalled ids

def makeStalledJobsWait (g : GenericQueue) (opts : WorkerOpts) (clock : Clock) :
    StoreM D R P (List ℕ × List ℕ) := do
  let checkKeyExists ← Store.existsIn .stalledCheck 0
  if checkKeyExists then pure ([], [])
  else do
    Store.setLock .stalledCheck none opts.stalledInterval
    let stalled ← Store.getJobIdsInState .stalled none none
    if stalled.isEmpty then
      g.recoverAllStalled opts (if g.isPaused then .paused else .wait) clock stalled
    else do
      let active ← Store.getJobIdsInState .active none none
      markStalled active
      pure ([], [])

/-- Toggle the pause; the direction is decided on the flag of the store. -/
def pauseOrResume (g : GenericQueue) : StoreM D R P Bool := do
  let metrics ← Store.getMetrics
  let pause := !metrics.isPaused
  Store.pause pause
  Store.publishEvent g.eventMode { event := if pause then .paused else .resumed }
  pure pause

/-! ### The worker side -/

/-- The end of a task: the counter is lowered only if a handle was found. -/
def releaseTask (g : GenericQueue) (handle : Option ℕ) (workerId : Uuid) (jobId : ℕ)
    (state : JobState) : StoreM D R P Unit :=
  match handle with
  | some _ => do
    let _ ← g.updateProcessingCount false workerId jobId state
    pure ()
  | none => pure ()

def repeatOrCleanUp (g : GenericQueue) (jobId : ℕ) (completed : Job D R P)
    (entry : JobMeta D R P) (clock : Clock) : StoreM D R P Unit :=
  if completed.attemptsMade < entry.job.opts.attempts then
    match completed.opts.repeat_ with
    | some repeatOpts =>
      g.retryJob jobId (.withRepeat repeatOpts) (predU64 completed.attemptsMade) clock
    | none => pure ()
  else cleanUpJob jobId entry.job.opts.removeOnComplete

def retryWhileLeft (g : GenericQueue) (jobId : ℕ) (failedJob : Job D R P)
    (entry : JobMeta D R P) (clock : Clock) : StoreM D R P Unit :=
  if failedJob.attemptsMade < entry.job.opts.attempts then
    match entry.job.opts.backoff with
    | some backoffJobOpts =>
      g.retryJob jobId (.failed backoffJobOpts) (predU64 failedJob.attemptsMade) clock
    | none => pure ()
  else pure ()

def retryOrCleanUp (g : GenericQueue) (jobId : ℕ) (failedJob : Job D R P)
    (entry : JobMeta D R P) (clock : Clock) : StoreM D R P Unit := do
  g.retryWhileLeft jobId failedJob entry clock
  if failedJob.attemptsMade = entry.job.opts.attempts then
    cleanUpJob jobId entry.job.opts.removeOnFail
  else pure ()

/-- What follows for a job that has an entry among the jobs in progress. -/
def settle (g : GenericQueue) (entry : Option (JobMeta D R P)) (jobId : ℕ) (workerId : Uuid)
    (state : JobState) (follow : JobMeta D R P → StoreM D R P Unit) : StoreM D R P Unit :=
  match entry with
  | none => pure ()
  | some entry => do
    follow entry
    g.releaseTask entry.handle workerId jobId state

/-- The first half of the end of `process_job`: the outcome of the callback is recorded. -/
def moveFinished (g : GenericQueue) (job : Job D R P) (token : JobToken)
    (returned : Except CaughtError R) (clock : Clock) : StoreM D R P (JobState × Job D R P) := do
  let jobId := job.id.getD 0
  let ts := clock.utc.timestampMicros
  let metrics ← liftKio job.getMetrics
  match returned with
  | .ok result => do
    let success := ProcessedResult.success result (Queue.runMetrics job metrics clock.utc)
    let completed ← g.moveJobToFinishedOrFailed jobId ts token .completed success none clock
    pure (.completed, completed)
  | .error err => do
    let details := Queue.failureDetails job err
    let failedJob ← g.moveJobToFinishedOrFailed jobId ts token .failed (.failed details.1)
      details.2 clock
    pure (.failed, failedJob)

def followUp (g : GenericQueue) (jobId : ℕ) (state : JobState) (after : Job D R P)
    (entry : JobMeta D R P) (clock : Clock) : StoreM D R P Unit :=
  if state = .completed then g.repeatOrCleanUp jobId after entry clock
  else g.retryOrCleanUp jobId after entry clock

/-- The second half; `entry` is what the map of the jobs in progress has for the job. -/
def settleFinished (g : GenericQueue) (jobId : ℕ) (workerId : Uuid)
    (entry : Option (JobMeta D R P)) (clock : Clock) (done : JobState × Job D R P) :
    StoreM D R P Unit :=
  g.settle entry jobId workerId done.1 fun entry => g.followUp jobId done.1 done.2 entry clock

/-- The end of `process_job`, with the entry of the job in progress. -/
def processJob (g : GenericQueue) (job : Job D R P) (token : JobToken) (workerId : Uuid)
    (entry : Option (JobMeta D R P)) (returned : Except CaughtError R) (clock : Clock) :
    StoreM D R P Unit := do
  let done ← g.moveFinished job token returned clock
  g.settleFinished (job.id.getD 0) workerId entry clock done

/-! ### In memory -/

structure Of (g : GenericQueue) (q : Queue D R P) : Prop where
  isPaused : g.isPaused = q.isPaused
  backoff : g.backoff = q.backoff

section InMemory

variable {g : GenericQueue} {q : Queue D R P}

/-- A procedure in memory has the result of an operation of `Queue`, and leaves its store. -/
def Performs {α : Type} (clock : Clock) (p : StoreM D R P α) (q : Queue D R P)
    (out : KioResult α × Queue D R P) : Prop :=
  p.exec (InMemoryStore.perform clock) q.store = (out.1.toStore, out.2.store)

theorem Performs.bind {α β : Type} {clock : Clock} {p : StoreM D R P α}
    {f : α → StoreM D R P β} {q r : Queue D R P} {a : α} {out : KioResult β × Queue D R P}
    (hp : Performs clock p q (.ok a, r)) (hf : Performs clock (f a) r out) :
    Performs clock (p >>= f) q out :=
  (Procedure.exec_bind_of_ok _ hp f).trans hf

theorem Performs.bind_error {α β : Type} {clock : Clock} {p : StoreM D R P α}
    (f : α → StoreM D R P β) {q q' : Queue D R P} {e : KioError}
    (hp : Performs clock p q (.error e, q')) : Performs clock (p >>= f) q (.error e, q') := by
  unfold Performs at hp ⊢
  rw [Procedure.exec_bind, hp]
  rfl

theorem performs_relocate (q : Queue D R P) (jobId : ℕ) (prev next : JobState) (ts : Option ℤ)
    (clock : Clock) :
    Performs clock (relocate jobId prev next ts clock) q
      (.ok (), { q with store := Queue.relocate q.store jobId prev next ts clock }) := by
  unfold relocate Queue.relocate
  dsimp only
  by_cases hfinal : next = .failed ∨ next = .completed
  · rw [if_pos hfinal, if_pos hfinal]
    rfl
  · rw [if_neg hfinal, if_neg hfinal]
    have hexists : Performs clock (Store.existsIn (.ofJobState next) jobId) q
        (.ok _, { q with store := (q.store.existsIn (.ofJobState next) jobId clock.instant).2 }) :=
      rfl
    refine hexists.bind ?_
    split_ifs <;> rfl

theorem performs_moveJobToState (hg : g.Of q) (jobId : ℕ) (prev next : JobState)
    (value : Option (ProcessedResult R)) (ts : Option ℤ) (backtrace : Option Trace)
    (clock : Clock) :
    Performs clock (g.moveJobToState jobId prev next value ts backtrace clock) q
      (q.moveJobToState jobId prev next value ts backtrace clock) := by
  have hexists : Performs clock (Store.jobExists jobId) q (.ok (q.store.jobExists jobId), q) := rfl
  unfold moveJobToState Queue.moveJobToState
  rw [hg.isPaused]
  by_cases hpaused : q.isPaused = true
  · rw [if_pos hpaused, if_pos hpaused]
    rfl
  · rw [if_neg hpaused, if_neg hpaused]
    refine hexists.bind ?_
    by_cases hmissing : (!q.store.jobExists jobId) = true
    · rw [if_pos hmissing, if_pos hmissing]
      rfl
    · rw [if_neg hmissing, if_neg hmissing]
      exact (performs_relocate q jobId prev next ts clock).bind rfl

theorem performs_requireJob (q : Queue D R P) (jobId : ℕ) (clock : Clock) :
    Performs clock (requireJob jobId) q
      (match q.store.getJob jobId with
        | some job => (.ok job, q)
        | none => (.error .jobNotFound, q)) := by
  have hget : Performs clock (Store.getJob jobId) q (.ok (q.store.getJob jobId), q) := rfl
  refine hget.bind ?_
  cases q.store.getJob jobId <;> rfl

theorem performs_prepareJobForProcessing (hg : g.Of q) (token : JobToken) (jobId ts : ℕ)
    (opts : WorkerOpts) (prevState : JobState) (clock : Clock) :
    Performs clock (g.prepareJobForProcessing token jobId ts opts prevState clock) q
      (q.prepareJobForProcessing token jobId ts opts prevState clock) := by
  unfold prepareJobForProcessing Queue.prepareJobForProcessing
  dsimp only
  have hlock : Performs clock (Store.setLock (.lock jobId) (some token) opts.lockDuration) q
      (.ok (), { q with
        store := q.store.setLock (.lock jobId) (some token) opts.lockDuration clock.instant }) :=
    rfl
  refine hlock.bind ?_
  have hmove := performs_moveJobToState (g := g) (q := { q with
    store := q.store.setLock (.lock jobId) (some token) opts.lockDuration clock.instant })
    ⟨hg.isPaused, hg.backoff⟩ jobId prevState .active none none none clock
  generalize Queue.moveJobToState _ jobId prevState .active none none none clock = out at hmove ⊢
  obtain ⟨e | _, q'⟩ := out
  · exact hmove.bind_error _
  · have hfields : Performs clock (Store.setFields jobId [.token token, .processedOn ts]) q'
        (.ok (), { q' with
          store := q'.store.setFields jobId [.token token, .processedOn ts] }) := rfl
    exact hmove.bind (hfields.bind (performs_requireJob _ jobId clock))

theorem performs_moveJobFromPriortyToActive (q : Queue D R P) (clock : Clock) :
    Performs clock moveJobFromPriortyToActive q
      (.ok q.moveJobFromPriortyToActive.1, q.moveJobFromPriortyToActive.2) := by
  have hpop : Performs clock (Store.popSet .prioritized true) q
      (.ok _, { q with store := (q.store.popSet .prioritized true).2 }) := rfl
  refine hpop.bind ?_
  unfold Queue.moveJobFromPriortyToActive
  rcases q.store.popSet .prioritized true with ⟨_ | ⟨entry, rest⟩, s⟩ <;> rfl

theorem performs_prepareJob (hg : g.Of q) (token : JobToken) (opts : WorkerOpts) (jobId : ℕ)
    (clock : Clock) :
    Performs clock (g.prepareJob token opts jobId clock) q
      (q.prepareJob token opts jobId clock) := by
  have hstate : Performs clock (Store.getState jobId) q (.ok (q.store.getState jobId), q) := rfl
  exact hstate.bind (performs_prepareJobForProcessing hg token jobId _ opts _ clock)

theorem Performs.processJob {clock : Clock} {p : StoreM D R P (Job D R P)} {q : Queue D R P}
    {out : KioResult (Job D R P) × Queue D R P} (h : Performs clock p q out) :
    Performs clock (do let job ← p; pure (MoveToActiveResult.processJob job)) q
      (out.1.map .processJob, out.2) := by
  obtain ⟨e | job, q'⟩ := out
  · exact h.bind_error _
  · exact h.bind rfl

/-- The cached pause flag is in the cells of the store. -/
theorem Of.setStore (hg : g.Of q) {s : InMemoryStore D R P}
    (hs : s.storedMetrics = q.store.storedMetrics) : g.Of { q with store := s } := by
  refine ⟨hg.isPaused.trans ?_, hg.backoff⟩
  rw [Queue.isPaused, Queue.isPaused, Queue.currentMetrics, Queue.currentMetrics, hs]

theorem performs_moveToActive (hg : g.Of q) (token : JobToken) (opts : WorkerOpts)
    (clock : Clock) :
    Performs clock (g.moveToActive token opts clock) q (q.moveToActive token opts clock) := by
  have hpop : Performs clock (Store.popBackPushFront .wait .active) q
      (.ok (q.store.popBackPushFront .wait .active).1,
        { q with store := (q.store.popBackPushFront .wait .active).2 }) := rfl
  have hcells : (q.store.popBackPushFront .wait .active).2.storedMetrics =
      q.store.storedMetrics := by
    simp only [InMemoryStore.popBackPushFront]
    split <;> rfl
  refine hpop.bind ?_
  unfold Queue.moveToActive
  generalize q.store.popBackPushFront .wait .active = popped at hcells ⊢
  rcases popped with ⟨_ | jobId, s⟩
  · refine (performs_moveJobFromPriortyToActive { q with store := s } clock).bind ?_
    dsimp only
    cases hout : ({ q with store := s } : Queue D R P).moveJobFromPriortyToActive with
    | mk found q' =>
      cases found with
      | none => rfl
      | some jobId =>
        obtain ⟨score, es, rest, -, rfl⟩ := Queue.moveJobFromPriortyToActive_cases hout
        have hactive := hg.setStore
          (s := { s with prioritized := rest }.addItem .active jobId none true) hcells
        exact (performs_prepareJob hactive token opts jobId clock).processJob
  · exact (performs_prepareJob (hg.setStore hcells) token opts jobId clock).processJob

theorem performs_moveJobToFinishedOrFailed (hg : g.Of q) (jobId : ℕ) (ts : ℤ)
    (token : JobToken) (next : JobState) (processed : ProcessedResult R)
    (backtrace : Option Trace) (clock : Clock) :
    Performs clock (g.moveJobToFinishedOrFailed jobId ts token next processed backtrace clock) q
      (q.moveJobToFinishedOrFailed jobId ts token next processed backtrace clock) := by
  have hstate : Performs clock (Store.getState jobId) q (.ok (q.store.getState jobId), q) := rfl
  refine hstate.bind ?_
  have hmove := performs_moveJobToState hg jobId ((q.store.getState jobId).getD default) next
    (some processed) (some ts) backtrace clock
  unfold Queue.moveJobToFinishedOrFailed
  dsimp only
  generalize q.moveJobToState jobId _ next (some processed) (some ts) backtrace clock = out
    at hmove ⊢
  obtain ⟨e | _, q'⟩ := out
  · exact hmove.bind_error _
  · exact hmove.bind (performs_requireJob q' jobId clock)

theorem performs_retryFailed (hg : g.backoff = q.backoff) (jobId : ℕ)
    (backoffJobOpts : BackOffJobOptions) (attempts : ℕ) (clock : Clock) :
    Performs clock (g.retryFailed jobId backoffJobOpts attempts clock) q
      (q.retryFailed jobId backoffJobOpts attempts clock) := by
  unfold retryFailed Queue.retryFailed Queue.calculateNextDelayMs
  rw [hg]
  dsimp only
  generalize ((BackOff.normalize (some backoffJobOpts)).bind fun opts =>
    q.backoff.calculate (some opts) (castSigned attempts) none) = nextDelay
  cases nextDelay with
  | none => rfl
  | some nextDelay =>
    dsimp only
    cases clock.utc.addMillis nextDelay <;> rfl

theorem performs_retryJob (hg : g.backoff = q.backoff) (jobId : ℕ) (opts : RetryOptions)
    (attempts : ℕ) (clock : Clock) :
    Performs clock (g.retryJob jobId opts attempts clock) q
      (q.retryJob jobId opts attempts clock) := by
  cases opts with
  | failed backoffJobOpts => exact performs_retryFailed hg jobId backoffJobOpts attempts clock
  | withRepeat r =>
    unfold retryJob Queue.retryJob
    rw [hg]
    dsimp only
    rcases r.nextOccurrence q.backoff attempts clock.utc with e | _ | next
    · rfl
    · rfl
    · refine Performs.bind (r := q) (a := some next) rfl ?_
      dsimp only
      split_ifs <;> rfl

theorem performs_cleanUpJob (q : Queue D R P) (jobId : ℕ)
    (removeOptions : Option RemoveOnCompletionOrFailure) (clock : Clock) :
    Performs clock (cleanUpJob jobId removeOptions) q
      (.ok (), q.cleanUpJob jobId removeOptions clock) := by
  unfold cleanUpJob Queue.cleanUpJob
  rcases removeOptions with _ | _ | _ | keep
  · rfl
  · dsimp only
    split_ifs <;> rfl
  · dsimp only
    split_ifs <;> rfl
  · have hage : Performs clock (expireAfter jobId keep.age) q (.ok (), { q with
        store := keep.age.elim q.store fun secs =>
          q.store.expire (.job jobId) secs clock.instant }) := by
      cases keep.age <;> rfl
    refine hage.bind ?_
    dsimp only
    split_ifs <;> rfl

theorem performs_updateProcessingCount (g : GenericQueue) (q : Queue D R P) (increment : Bool)
    (workerId : Uuid) (jobId : ℕ) (state : JobState) (clock : Clock) :
    Performs clock (g.updateProcessingCount increment workerId jobId state) q
      (.ok (q.updateProcessingCount increment workerId jobId state).1,
        (q.updateProcessingCount increment workerId jobId state).2) := rfl

theorem performs_extendLock (q : Queue D R P) (jobId lockDuration : ℕ) (token : JobToken)
    (clock : Clock) :
    Performs clock (extendLock jobId lockDuration token) q
      (q.extendLock jobId lockDuration token clock) := by
  have htoken : Performs clock (Store.getToken jobId) q
      (.ok (q.store.getToken jobId clock.instant).1,
        { q with store := (q.store.getToken jobId clock.instant).2 }) := rfl
  refine htoken.bind ?_
  unfold Queue.extendLock
  dsimp only
  split_ifs <;> rfl

/-! ### The worker in memory -/

theorem performs_releaseTask (g : GenericQueue) (q : Queue D R P) (handle : Option ℕ)
    (workerId : Uuid) (jobId : ℕ) (state : JobState) (clock : Clock) :
    Performs clock (g.releaseTask handle workerId jobId state) q
      (.ok (), q.releaseTask handle workerId jobId state) := by
  cases handle <;> rfl

theorem performs_repeatOrCleanUp (hg : g.backoff = q.backoff) (jobId : ℕ) (completed : Job D R P)
    (entry : JobMeta D R P) (clock : Clock) :
    Performs clock (g.repeatOrCleanUp jobId completed entry clock) q
      (q.repeatOrCleanUp jobId completed entry clock) := by
  unfold repeatOrCleanUp Queue.repeatOrCleanUp
  split_ifs with hleft
  · cases completed.opts.repeat_ with
    | none => rfl
    | some repeatOpts => exact performs_retryJob hg jobId (.withRepeat repeatOpts) _ clock
  · exact performs_cleanUpJob q jobId _ clock

theorem performs_retryOrCleanUp (hg : g.backoff = q.backoff) (jobId : ℕ) (failedJob : Job D R P)
    (entry : JobMeta D R P) (clock : Clock) :
    Performs clock (g.retryOrCleanUp jobId failedJob entry clock) q
      (q.retryOrCleanUp jobId failedJob entry clock) := by
  have hretry : ∀ retried, (if failedJob.attemptsMade < entry.job.opts.attempts then
      match entry.job.opts.backoff with
      | some backoffJobOpts =>
        q.retryJob jobId (.failed backoffJobOpts) (predU64 failedJob.attemptsMade) clock
      | none => (.ok (), q)
    else (.ok (), q)) = retried →
      Performs clock (g.retryWhileLeft jobId failedJob entry clock) q retried := by
    rintro retried rfl
    unfold retryWhileLeft
    split_ifs with hleft
    · cases entry.job.opts.backoff with
      | none => rfl
      | some backoffJobOpts => exact performs_retryJob hg jobId (.failed backoffJobOpts) _ clock
    · rfl
  unfold retryOrCleanUp Queue.retryOrCleanUp
  dsimp only
  generalize hretried : (if failedJob.attemptsMade < entry.job.opts.attempts then
      match entry.job.opts.backoff with
      | some backoffJobOpts =>
        q.retryJob jobId (.failed backoffJobOpts) (predU64 failedJob.attemptsMade) clock
      | none => (.ok (), q)
    else (.ok (), q)) = retried
  have hperforms := hretry retried hretried
  obtain ⟨e | _, q'⟩ := retried
  · exact hperforms.bind_error _
  · refine hperforms.bind ?_
    dsimp only
    split_ifs
    · exact performs_cleanUpJob q' jobId _ clock
    · rfl

/-- The entry of the job is taken from the map of the jobs in progress, which is no part of
the store. -/
theorem performs_settle (g : GenericQueue) (q : Queue D R P) (jobId : ℕ) (workerId : Uuid)
    (state : JobState) {follow : JobMeta D R P → StoreM D R P Unit}
    {follow' : Queue D R P → JobMeta D R P → KioResult Unit × Queue D R P} (clock : Clock)
    (hfollow : ∀ entry, Performs clock (follow entry)
      { q with jobsInProgress := q.jobsInProgress.remove jobId }
      (follow' { q with jobsInProgress := q.jobsInProgress.remove jobId } entry)) :
    Performs clock (g.settle (q.jobsInProgress.get? jobId) jobId workerId state follow) q
      (q.settle jobId workerId state follow') := by
  unfold settle Queue.settle
  cases q.jobsInProgress.get? jobId with
  | none => rfl
  | some entry =>
    have hentry : Performs clock (follow entry) q
      (follow' { q with jobsInProgress := q.jobsInProgress.remove jobId } entry) := hfollow entry
    dsimp only
    generalize follow' { q with jobsInProgress := q.jobsInProgress.remove jobId } entry = out
      at hentry ⊢
    obtain ⟨e | _, q'⟩ := out
    · exact hentry.bind_error _
    · exact hentry.bind (performs_releaseTask g q' entry.handle workerId jobId state clock)

theorem backoff_moveJobToFinishedOrFailed (q : Queue D R P) (jobId : ℕ) (ts : ℤ)
    (token : JobToken) (next : JobState) (processed : ProcessedResult R)
    (backtrace : Option Trace) (clock : Clock) :
    (q.moveJobToFinishedOrFailed jobId ts token next processed backtrace clock).2.backoff =
      q.backoff := by
  rw [Queue.moveJobToFinishedOrFailed_snd]
  unfold Queue.moveJobToState
  split_ifs <;> rfl

theorem jobsInProgress_moveJobToFinishedOrFailed (q : Queue D R P) (jobId : ℕ) (ts : ℤ)
    (token : JobToken) (next : JobState) (processed : ProcessedResult R)
    (backtrace : Option Trace) (clock : Clock) :
    (q.moveJobToFinishedOrFailed jobId ts token next processed backtrace clock).2.jobsInProgress =
      q.jobsInProgress := by
  rw [Queue.moveJobToFinishedOrFailed_snd]
  unfold Queue.moveJobToState
  split_ifs <;> rfl

theorem performs_moveFinished (hg : g.Of q) (job : Job D R P) (token : JobToken)
    (returned : Except CaughtError R) (clock : Clock) :
    Performs clock (g.moveFinished job token returned clock) q
      (q.moveFinished job token returned clock) := by
  unfold moveFinished Queue.moveFinished
  dsimp only
  cases job.getMetrics with
  | error e => exact Performs.bind_error _ rfl
  | ok metrics =>
    refine Performs.bind (r := q) (a := metrics) rfl ?_
    cases returned with
    | ok result =>
      have hmove := performs_moveJobToFinishedOrFailed hg (job.id.getD 0)
        clock.utc.timestampMicros token .completed
        (.success result (Queue.runMetrics job metrics clock.utc)) none clock
      dsimp only
      generalize Queue.moveJobToFinishedOrFailed q _ _ token .completed _ none clock = out
        at hmove ⊢
      obtain ⟨e | completed, q'⟩ := out
      · exact hmove.bind_error _
      · exact hmove.bind rfl
    | error err =>
      have hmove := performs_moveJobToFinishedOrFailed hg (job.id.getD 0)
        clock.utc.timestampMicros token .failed (.failed (Queue.failureDetails job err).1)
        (Queue.failureDetails job err).2 clock
      dsimp only
      generalize Queue.moveJobToFinishedOrFailed q _ _ token .failed _ _ clock = out at hmove ⊢
      obtain ⟨e | failedJob, q'⟩ := out
      · exact hmove.bind_error _
      · exact hmove.bind rfl

theorem performs_followUp (hg : g.backoff = q.backoff) (jobId : ℕ) (state : JobState)
    (after : Job D R P) (entry : JobMeta D R P) (clock : Clock) :
    Performs clock (g.followUp jobId state after entry clock) q
      (q.followUp jobId state after entry clock) := by
  unfold followUp Queue.followUp
  split_ifs
  · exact performs_repeatOrCleanUp hg jobId after entry clock
  · exact performs_retryOrCleanUp hg jobId after entry clock

theorem performs_settleFinished (hg : g.backoff = q.backoff) (jobId : ℕ) (workerId : Uuid)
    (clock : Clock) (done : JobState × Job D R P) :
    Performs clock (g.settleFinished jobId workerId (q.jobsInProgress.get? jobId) clock done) q
      (q.settle jobId workerId done.1 fun q entry =>
        q.followUp jobId done.1 done.2 entry clock) :=
  performs_settle g q jobId workerId done.1 clock fun entry =>
    performs_followUp (q := { q with jobsInProgress := q.jobsInProgress.remove jobId }) hg jobId
      done.1 done.2 entry clock

theorem moveFinished_keeps (q : Queue D R P) (job : Job D R P) (token : JobToken)
    (returned : Except CaughtError R) (clock : Clock) :
    (q.moveFinished job token returned clock).2.backoff = q.backoff ∧
      (q.moveFinished job token returned clock).2.jobsInProgress = q.jobsInProgress := by
  unfold Queue.moveFinished
  cases job.getMetrics with
  | error e => exact ⟨rfl, rfl⟩
  | ok metrics =>
    cases returned <;> exact ⟨backoff_moveJobToFinishedOrFailed _ _ _ _ _ _ _ _,
      jobsInProgress_moveJobToFinishedOrFailed _ _ _ _ _ _ _ _⟩

theorem performs_processJob (hg : g.Of q) (job : Job D R P) (token : JobToken) (workerId : Uuid)
    (returned : Except CaughtError R) (clock : Clock) :
    Performs clock
      (g.processJob job token workerId (q.jobsInProgress.get? (job.id.getD 0)) returned clock) q
      (q.processJob job token workerId returned clock) := by
  have hmove := performs_moveFinished hg job token returned clock
  have hkeeps := moveFinished_keeps q job token returned clock
  rw [Queue.processJob_eq]
  unfold processJob
  generalize q.moveFinished job token returned clock = out at hmove hkeeps ⊢
  obtain ⟨e | done, q'⟩ := out
  · exact hmove.bind_error _
  · refine hmove.bind ?_
    rw [← hkeeps.2]
    exact performs_settleFinished (hg.backoff.trans hkeeps.1.symm) _ workerId clock done

theorem performs_markStalled (q : Queue D R P) (ids : List ℕ) (clock : Clock) :
    Performs clock (markStalled ids) q
      (.ok (), { q with
        store := ids.foldl (fun s jobId => Queue.markStalled s jobId clock) q.store }) := by
  induction ids generalizing q with
  | nil => rfl
  | cons jobId ids ih =>
    have hlock : Performs clock (Store.existsIn (.lock jobId) jobId) q
        (.ok (q.store.existsIn (.lock jobId) jobId clock.instant).1,
          { q with store := (q.store.existsIn (.lock jobId) jobId clock.instant).2 }) := rfl
    refine hlock.bind ?_
    rw [List.foldl_cons, Queue.markStalled]
    split_ifs
    · exact ih _
    · exact Performs.bind (r := { q with store := _ }) rfl
        (Performs.bind (r := { q with store := _ }) rfl (ih _))

theorem performs_makeStalledJobsWait (g : GenericQueue) (q : Queue D R P) (opts : WorkerOpts)
    (clock : Clock) :
    Performs clock (g.makeStalledJobsWait opts clock) q (q.makeStalledJobsWait opts clock) := by
  have hcheck : Performs clock (Store.existsIn .stalledCheck 0) q
      (.ok (q.store.existsIn .stalledCheck 0 clock.instant).1,
        { q with store := (q.store.existsIn .stalledCheck 0 clock.instant).2 }) := rfl
  refine hcheck.bind ?_
  unfold Queue.makeStalledJobsWait
  dsimp only
  generalize q.store.existsIn .stalledCheck 0 clock.instant = check
  obtain ⟨found, s⟩ := check
  cases found with
  | true => rfl
  | false =>
    let t := s.setLock .stalledCheck none opts.stalledInterval clock.instant
    have hset : Performs clock (Store.setLock .stalledCheck none opts.stalledInterval)
        { q with store := s } (.ok (), { q with store := t }) := rfl
    have hids : ∀ state, Performs clock (Store.getJobIdsInState state none none)
        { q with store := t } (.ok (t.getJobIdsInState state none none), { q with store := t }) :=
      fun _ => rfl
    refine hset.bind ((hids .stalled).bind ?_)
    change Performs clock _ _ (if (t.getJobIdsInState .stalled none none).isEmpty then _ else _)
    cases t.getJobIdsInState .stalled none none with
    | nil => rfl
    | cons id ids => exact (hids .active).bind ((performs_markStalled _ _ clock).bind rfl)

theorem performs_pauseOrResume (g : GenericQueue) (q : Queue D R P) (clock : Clock) :
    (g.pauseOrResume).exec (InMemoryStore.perform clock) q.getMetrics.2.store =
      (.ok (!q.store.isPaused), q.pauseOrResume.store) := rfl

end InMemory

end GenericQueue

end Kiomq
