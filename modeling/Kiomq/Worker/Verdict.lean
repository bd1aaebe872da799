import Kiomq.Queue.Finishing
import Kiomq.Queue.System
import Kiomq.Worker.FollowUp

/-!
# The verdict on a finished job

`process_job` reads the record back that the outcome was written to, and decides from it and
from the options of its entry what follows: the job comes again, its retention policy is
applied, or it is left as it is. The decision is separated here from what is done about it.
-/

namespace Kiomq

open Foundations InMemoryStore

variable {D R P : Type}

/-! ### The record that is read back -/

namespace Queue

/-- The attempts that the record shows after the outcome was written; a queue whose cached
pause flag is set does not count the attempt. -/
def attemptsAfter (q : Queue D R P) (r : Job D R P) : ℕ :=
  if q.isPaused then r.attemptsMade else r.attemptsMade + 1

/-- The job with record `r` is in `state` after the outcome was written. -/
def Enters (q : Queue D R P) (r : Job D R P) (state : JobState) : Prop :=
  q.isPaused = false ∨ r.state = state

/-- The job with record `r` is read back as `after` from the store `t`. -/
structure ReadBack (q : Queue D R P) (id : ℕ) (state : JobState) (r : Job D R P)
    (t : InMemoryStore D R P) (after : Job D R P) : Prop where
  found : t.getJob id = some after
  opts : after.opts = r.opts
  spent : after.attemptsMade = q.attemptsAfter r
  state_iff : after.state = state ↔ q.Enters r state
  shelved : ∀ j, t.shelved j ≤ q.store.shelved j
  processing : t.processing = q.store.processing

theorem moveJobToFinishedOrFailed_readBack {q : Queue D R P} {id : ℕ} {r : Job D R P}
    (hr : q.store.getJob id = some r) (ts : ℤ) (token : JobToken) {next : JobState}
    (hnext : next = .failed ∨ next = .completed) (processed : ProcessedResult R)
    (backtrace : Option Trace) (clock : Clock) :
    ∃ t after, q.moveJobToFinishedOrFailed id ts token next processed backtrace clock =
      (.ok after, { q with store := t }) ∧ q.ReadBack id next r t after := by
  cases hpause : q.isPaused with
  | true =>
    refine ⟨q.store, r, ?_, hr, rfl, ?_, ?_, fun _ => le_rfl, rfl⟩
    · rw [moveJobToFinishedOrFailed_paused hpause, hr]
      rfl
    · rw [attemptsAfter, hpause, if_pos rfl]
    · simp [Enters, hpause]
  | false =>
    have hfound := getJob_finishedStore hr ts hnext processed backtrace clock id
    rw [if_pos rfl] at hfound
    refine ⟨_, _, moveJobToFinishedOrFailed_eq hpause hr ts token hnext processed backtrace clock,
      hfound, ?_, ?_, ?_, ?_, ?_⟩
    · exact opts_foldl_setField _ _
    · rw [attemptsMade_finishedRecord, attemptsAfter, hpause]
      rfl
    · exact iff_of_true (state_finishedRecord r ts next processed backtrace) (Or.inl hpause)
    · exact (relocate_finished q.store id r.state next hnext (some ts) clock).1
    · exact (sameFlags_relocate q.store id r.state next (some ts) clock).processing

theorem exists_metrics {job : Job D R P} (h : job.getMetrics.isOk = true) :
    ∃ metrics, job.getMetrics = .ok metrics := by
  cases hm : job.getMetrics with
  | error e =>
    rw [hm] at h
    cases h
  | ok metrics => exact ⟨metrics, rfl⟩

/-- A task whose job has lost its record ends with an error, whether the queue is paused or
not. -/
theorem moveFinished_lost {q : Queue D R P} {job : Job D R P} (hok : job.getMetrics.isOk = true)
    (hr : q.store.getJob (job.id.getD 0) = none) (token : JobToken)
    (returned : Except CaughtError R) (clock : Clock) :
    q.moveFinished job token returned clock = (.error .jobNotFound, q) := by
  obtain ⟨metrics, hm⟩ := exists_metrics hok
  cases hpause : q.isPaused with
  | false => exact moveFinished_missing hpause hm hr token returned clock
  | true =>
    cases returned <;>
      simp only [moveFinished, hm, moveJobToFinishedOrFailed_paused hpause, hr, Option.elim,
        Except.map]

theorem moveFinished_readBack {q : Queue D R P} {job r : Job D R P}
    (hok : job.getMetrics.isOk = true) (hr : q.store.getJob (job.id.getD 0) = some r)
    (token : JobToken) (returned : Except CaughtError R) (clock : Clock) :
    ∃ t after, q.moveFinished job token returned clock =
        (.ok (finishedState returned, after), { q with store := t }) ∧
      q.ReadBack (job.id.getD 0) (finishedState returned) r t after := by
  obtain ⟨metrics, hm⟩ := exists_metrics hok
  cases returned with
  | ok result =>
    obtain ⟨t, after, heq, hread⟩ := moveJobToFinishedOrFailed_readBack hr
      clock.utc.timestampMicros token (Or.inr rfl : JobState.completed = .failed ∨ _)
      (.success result (runMetrics job metrics clock.utc)) none clock
    exact ⟨t, after, by simp only [moveFinished, hm, heq, Except.map, finishedState], hread⟩
  | error err =>
    obtain ⟨t, after, heq, hread⟩ := moveJobToFinishedOrFailed_readBack hr
      clock.utc.timestampMicros token (Or.inl rfl : JobState.failed = .failed ∨ _)
      (.failed (failureDetails job err).1) (failureDetails job err).2 clock
    exact ⟨t, after, by simp only [moveFinished, hm, heq, Except.map, finishedState], hread⟩

/-- The three ways that the first half of a task can go: it panics, it finds no record, or it
reads the record back. -/
inductive FirstHalf (q : Queue D R P) (job : Job D R P) (token : JobToken)
    (returned : Except CaughtError R) (clock : Clock) : Prop
  | panics {e : KioError} (hm : job.getMetrics = .error e)
  | lost (hok : job.getMetrics.isOk = true) (hr : q.store.getJob (job.id.getD 0) = none)
  | readBack {r after : Job D R P} {t : InMemoryStore D R P} (hok : job.getMetrics.isOk = true)
      (hr : q.store.getJob (job.id.getD 0) = some r)
      (hmove : q.moveFinished job token returned clock =
        (.ok (finishedState returned, after), { q with store := t }))
      (hread : q.ReadBack (job.id.getD 0) (finishedState returned) r t after)

theorem firstHalf (q : Queue D R P) (job : Job D R P) (token : JobToken)
    (returned : Except CaughtError R) (clock : Clock) :
    q.FirstHalf job token returned clock := by
  cases hm : job.getMetrics with
  | error e => exact .panics hm
  | ok metrics =>
    have hok : job.getMetrics.isOk = true := by
      rw [hm]
      rfl
    cases hr : q.store.getJob (job.id.getD 0) with
    | none => exact .lost hok hr
    | some r =>
      obtain ⟨t, after, hmove, hread⟩ := moveFinished_readBack hok hr token returned clock
      exact .readBack hok hr hmove hread

end Queue

/-! ### The decision -/

/-- What is to be done about a finished job; a job that comes again does so at a time in
milliseconds, where a repetition at time `0` is due at once. -/
inductive Verdict
  | repeated (time : ℤ)
  | retried (time : ℤ)
  | cleanUp (policy : Option RemoveOnCompletionOrFailure)
  | leave
  deriving DecidableEq, Repr

namespace Verdict

def comesAgain : Verdict → Bool
  | repeated _ => true
  | retried _ => true
  | _ => false

def perform (q : Queue D R P) (jobId : ℕ) (clock : Clock) : Verdict → Queue D R P
  | repeated time =>
    if time = 0 then { q with store := q.store.addItem .wait jobId none true }
    else { q with store := q.store.addItem .delayed jobId (some time) true }
  | retried time =>
    { q with
      store := (q.store.addItem .delayed jobId (some time) false).removeItem .failed jobId }
  | cleanUp policy => q.cleanUpJob jobId policy clock
  | leave => q

end Verdict

namespace Queue

/-- When a job that has succeeded `made` times is due again by its repeat policy. -/
def nextRepetition (q : Queue D R P) (opts : JobOptions) (made : ℕ) (clock : Clock) :
    KioResult (Option ℤ) :=
  match opts.repeat_ with
  | some repeatOpts => repeatOpts.nextOccurrence q.backoff (predU64 made) clock.utc
  | none => .ok none

/-- When a job that has failed is due again by its backoff. -/
def nextRetry (q : Queue D R P) (opts : JobOptions) (made : ℕ) (clock : Clock) :
    KioResult (Option ℤ) :=
  match opts.backoff.bind fun backoffJobOpts =>
      q.calculateNextDelayMs backoffJobOpts (castSigned (predU64 made)) with
  | some nextDelay => (clock.utc.addMillis nextDelay).map fun time => some time.timestampMillis
  | none => .ok none

/-- The verdict on a job that is read back as `after`; `entry` is its entry in the map of jobs
in progress. -/
def verdict (q : Queue D R P) (state : JobState) (after : Job D R P) (entry : JobMeta D R P)
    (clock : Clock) : KioResult Verdict :=
  let made := after.attemptsMade
  let opts := entry.job.opts
  if state = .completed then
    if made < opts.attempts then
      (q.nextRepetition after.opts made clock).map fun time => time.elim .leave .repeated
    else .ok (.cleanUp opts.removeOnComplete)
  else if made < opts.attempts then
    (q.nextRetry opts made clock).map fun time => time.elim .leave .retried
  else if made = opts.attempts then .ok (.cleanUp opts.removeOnFail)
  else .ok .leave

theorem repeatOrCleanUp_eq (q : Queue D R P) (jobId : ℕ) (after : Job D R P)
    (entry : JobMeta D R P) (clock : Clock) :
    q.repeatOrCleanUp jobId after entry clock =
      match q.verdict .completed after entry clock with
      | .error e => (.error e, q)
      | .ok v => (.ok (), v.perform q jobId clock) := by
  unfold repeatOrCleanUp verdict
  by_cases hlt : after.attemptsMade < entry.job.opts.attempts
  · simp only [if_true, if_pos hlt, nextRepetition]
    cases after.opts.repeat_ with
    | none => rfl
    | some repeatOpts =>
      simp only [retryJob]
      cases repeatOpts.nextOccurrence q.backoff (predU64 after.attemptsMade) clock.utc with
      | error e => rfl
      | ok found =>
        cases found with
        | none => rfl
        | some time =>
          simp only [Except.map, Option.elim, Verdict.perform]
          split_ifs <;> rfl
  · simp only [if_true, if_neg hlt]
    rfl

theorem retryOrCleanUp_eq (q : Queue D R P) (jobId : ℕ) {state : JobState}
    (hstate : state ≠ .completed) (after : Job D R P) (entry : JobMeta D R P) (clock : Clock) :
    q.retryOrCleanUp jobId after entry clock =
      match q.verdict state after entry clock with
      | .error e => (.error e, q)
      | .ok v => (.ok (), v.perform q jobId clock) := by
  unfold retryOrCleanUp verdict
  by_cases hlt : after.attemptsMade < entry.job.opts.attempts
  · have hne : after.attemptsMade ≠ entry.job.opts.attempts := by omega
    simp only [if_neg hstate, if_pos hlt, if_neg hne, nextRetry]
    cases entry.job.opts.backoff with
    | none => rfl
    | some backoffJobOpts =>
      simp only [retryJob, retryFailed, Option.bind_some]
      cases q.calculateNextDelayMs backoffJobOpts (castSigned (predU64 after.attemptsMade)) with
      | none => rfl
      | some nextDelay =>
        simp only
        cases clock.utc.addMillis nextDelay <;> rfl
  · simp only [if_neg hstate, if_neg hlt]
    split_ifs <;> rfl

/-- What follows a finished job is what the verdict says. -/
theorem followUp_eq (q : Queue D R P) (jobId : ℕ) (state : JobState) (after : Job D R P)
    (entry : JobMeta D R P) (clock : Clock) :
    q.followUp jobId state after entry clock =
      match q.verdict state after entry clock with
      | .error e => (.error e, q)
      | .ok v => (.ok (), v.perform q jobId clock) := by
  unfold followUp
  split_ifs with hstate
  · subst hstate
    exact q.repeatOrCleanUp_eq jobId after entry clock
  · exact q.retryOrCleanUp_eq jobId hstate after entry clock

/-! ### The whole task -/

theorem processJob_panics {q : Queue D R P} {job : Job D R P} {e : KioError}
    (hm : job.getMetrics = .error e) (token : JobToken) (workerId : Uuid)
    (returned : Except CaughtError R) (clock : Clock) :
    q.processJob job token workerId returned clock = (.error e, q) := by
  rw [processJob_eq, moveFinished_error hm]

theorem processJob_lost {q : Queue D R P} {job : Job D R P} (hok : job.getMetrics.isOk = true)
    (hr : q.store.getJob (job.id.getD 0) = none) (token : JobToken) (workerId : Uuid)
    (returned : Except CaughtError R) (clock : Clock) :
    q.processJob job token workerId returned clock = (.error .jobNotFound, q) := by
  rw [processJob_eq, moveFinished_lost hok hr]

/-- The queue of a task that has taken its entry out of the map of jobs in progress. -/
def taken (q : Queue D R P) (id : ℕ) (t : InMemoryStore D R P) : Queue D R P :=
  { q with store := t, jobsInProgress := q.jobsInProgress.remove id }

/-- The task has read its job back as `after` from the store `t`, and finds its `entry`. -/
structure Judges (q : Queue D R P) (job : Job D R P) (token : JobToken)
    (returned : Except CaughtError R) (clock : Clock) (t : InMemoryStore D R P)
    (after : Job D R P) (entry : JobMeta D R P) : Prop where
  moved : q.moveFinished job token returned clock =
    (.ok (finishedState returned, after), { q with store := t })
  found : q.jobsInProgress.get? (job.id.getD 0) = some entry

section Judges

variable {q : Queue D R P} {job after : Job D R P} {entry : JobMeta D R P}
  {t : InMemoryStore D R P} {token : JobToken} {returned : Except CaughtError R} {clock : Clock}

theorem Judges.processJob_eq (h : q.Judges job token returned clock t after entry)
    (workerId : Uuid) :
    q.processJob job token workerId returned clock =
      match q.verdict (finishedState returned) after entry clock with
      | .error e => (.error e, q.taken (job.id.getD 0) t)
      | .ok v => (.ok (), (v.perform (q.taken (job.id.getD 0) t) (job.id.getD 0) clock).releaseTask
          entry.handle workerId (job.id.getD 0) (finishedState returned)) := by
  have hfollow := (q.taken (job.id.getD 0) t).followUp_eq (job.id.getD 0) (finishedState returned)
    after entry clock
  have hsame : (q.taken (job.id.getD 0) t).verdict (finishedState returned) after entry clock =
      q.verdict (finishedState returned) after entry clock := rfl
  rw [hsame] at hfollow
  unfold taken at hfollow ⊢
  rw [Queue.processJob_eq, h.moved]
  simp only [settle, h.found, hfollow]
  cases q.verdict (finishedState returned) after entry clock <;> rfl

end Judges

/-- The verdict that the task carries out, if it finds its entry. -/
def ending (q : Queue D R P) (job : Job D R P) (token : JobToken)
    (returned : Except CaughtError R) (clock : Clock) : KioResult (Option Verdict) :=
  match q.moveFinished job token returned clock with
  | (.error e, _) => .error e
  | (.ok (state, after), q) =>
    match q.jobsInProgress.get? (job.id.getD 0) with
    | none => .ok none
    | some entry => (q.verdict state after entry clock).map some

def comesAgain (q : Queue D R P) (job : Job D R P) (token : JobToken)
    (returned : Except CaughtError R) (clock : Clock) : Bool :=
  match q.ending job token returned clock with
  | .ok (some v) => v.comesAgain
  | _ => false

section Ending

variable {q : Queue D R P} {job after : Job D R P} {entry : JobMeta D R P}
  {t : InMemoryStore D R P} {token : JobToken} {returned : Except CaughtError R} {clock : Clock}

theorem comesAgain_iff : q.comesAgain job token returned clock = true ↔
    ∃ v, q.ending job token returned clock = .ok (some v) ∧ v.comesAgain = true := by
  unfold comesAgain
  constructor
  · intro h
    split at h
    · next v hv => exact ⟨v, hv, h⟩
    · cases h
  · rintro ⟨v, hv, hcomes⟩
    rw [hv]
    exact hcomes

theorem Judges.ending_eq_ok_iff (h : q.Judges job token returned clock t after entry)
    (v : Verdict) :
    q.ending job token returned clock = .ok (some v) ↔
      q.verdict (finishedState returned) after entry clock = .ok v := by
  have heq : q.ending job token returned clock =
      (q.verdict (finishedState returned) after entry clock).map some := by
    simp only [ending, h.moved, h.found]
    rfl
  rw [heq]
  cases q.verdict (finishedState returned) after entry clock <;> simp [Except.map]

theorem exists_entry_of_comesAgain
    (hmove : q.moveFinished job token returned clock =
      (.ok (finishedState returned, after), { q with store := t }))
    (h : q.comesAgain job token returned clock = true) :
    ∃ entry, q.jobsInProgress.get? (job.id.getD 0) = some entry := by
  cases hent : q.jobsInProgress.get? (job.id.getD 0) with
  | some entry => exact ⟨entry, rfl⟩
  | none => simp [comesAgain, ending, hmove, hent] at h

end Ending

end Queue

/-! ### Panics

The only errors of the decision are panics of the clock arithmetic, and a function that
panics does not return.
-/

/-- Every error of the computation is a panic. -/
def OnlyPanics {α : Type*} (x : KioResult α) : Prop :=
  ∀ e, x = .error e → ∃ message, e = .panicked message

theorem onlyPanics_ok {α : Type*} (a : α) : OnlyPanics (.ok a) := by
  intro e h
  cases h

theorem OnlyPanics.map {α β : Type*} {x : KioResult α} (h : OnlyPanics x) (f : α → β) :
    OnlyPanics (x.map f) := by
  cases x with
  | ok a => exact onlyPanics_ok (f a)
  | error e' =>
    rintro e ⟨⟩
    exact h e' rfl

theorem onlyPanics_addMillis (t : Dt) (ms : ℤ) : OnlyPanics (t.addMillis ms) := by
  unfold Dt.addMillis
  split_ifs
  · exact onlyPanics_ok _
  · rintro e ⟨⟩
    exact ⟨_, rfl⟩

theorem onlyPanics_nextOccurrence (r : Repeat) (backoff : BackOff) (attempts : ℕ) (now : Dt) :
    OnlyPanics (r.nextOccurrence backoff attempts now) := by
  cases r with
  | withCron cron => exact onlyPanics_ok _
  | withBackOff opts =>
    simp only [Repeat.nextOccurrence]
    split
    · exact onlyPanics_ok _
    · exact (onlyPanics_addMillis _ _).map _
  | every delayMs maxAttempts =>
    simp only [Repeat.nextOccurrence]
    split_ifs
    · exact onlyPanics_ok _
    · exact (onlyPanics_addMillis _ _).map _
  | immediately maxAttempts =>
    simp only [Repeat.nextOccurrence]
    split_ifs <;> exact onlyPanics_ok _

theorem onlyPanics_getMetrics (job : Job D R P) : OnlyPanics job.getMetrics := by
  apply OnlyPanics.map
  cases job.opts.delay with
  | timeMilis ms => exact onlyPanics_ok ms
  | fromCron cron =>
    simp only [JobDelay.asDiffMs]
    split
    · exact onlyPanics_ok _
    · rintro e ⟨⟩
      exact ⟨_, rfl⟩

namespace Queue

theorem onlyPanics_nextRepetition (q : Queue D R P) (opts : JobOptions) (made : ℕ)
    (clock : Clock) : OnlyPanics (q.nextRepetition opts made clock) := by
  unfold nextRepetition
  split
  · exact onlyPanics_nextOccurrence _ _ _ _
  · exact onlyPanics_ok _

theorem onlyPanics_nextRetry (q : Queue D R P) (opts : JobOptions) (made : ℕ) (clock : Clock) :
    OnlyPanics (q.nextRetry opts made clock) := by
  unfold nextRetry
  split
  · exact (onlyPanics_addMillis _ _).map _
  · exact onlyPanics_ok _

theorem onlyPanics_verdict (q : Queue D R P) (state : JobState) (after : Job D R P)
    (entry : JobMeta D R P) (clock : Clock) : OnlyPanics (q.verdict state after entry clock) := by
  simp only [verdict]
  split_ifs
  · exact (q.onlyPanics_nextRepetition _ _ clock).map _
  · exact onlyPanics_ok _
  · exact (q.onlyPanics_nextRetry _ _ clock).map _
  · exact onlyPanics_ok _
  · exact onlyPanics_ok _

end Queue

/-- A system whose only job has the options `opts` and is run by a task with a handle. -/
def System.oneRunning (opts : JobOptions) : System Unit Unit Unit :=
  let w : System Unit Unit Unit := System.init none "mail" none 1 .new
  let added := { w with queue := (w.queue.bulkAdd [("a", some opts, ())] ⟨0, 0⟩).2 }
  (added.poll ⟨0, 0, 0⟩ {} ⟨0, 0⟩).storeHandle 1 9

end Kiomq
