import Kiomq.Queue.Frames
import Kiomq.Queue.Transitions

/-!
# The two halves of `process_job`

A task first records the outcome of the callback and, once its entry is removed, follows
it up with a retry or the retention policy. Neither half touches the pause flag and the
counter of jobs in processing, and the second one touches no record but that of its job.
-/

namespace Kiomq

open Foundations InMemoryStore

variable {D R P : Type}

namespace Queue

def moveFinished (q : Queue D R P) (job : Job D R P) (token : JobToken)
    (returned : Except CaughtError R) (clock : Clock) :
    KioResult (JobState × Job D R P) × Queue D R P :=
  let jobId := job.id.getD 0
  let ts := clock.utc.timestampMicros
  match job.getMetrics with
  | .error e => (.error e, q)
  | .ok metrics =>
    match returned with
    | .ok result =>
      let success := ProcessedResult.success result (runMetrics job metrics clock.utc)
      let out := q.moveJobToFinishedOrFailed jobId ts token .completed success none clock
      (out.1.map fun completed => (.completed, completed), out.2)
    | .error err =>
      let details := failureDetails job err
      let out := q.moveJobToFinishedOrFailed jobId ts token .failed (.failed details.1) details.2
        clock
      (out.1.map fun failedJob => (.failed, failedJob), out.2)

/-- The state of a job after its callback has returned. -/
def finishedState : Except CaughtError R → JobState
  | .ok _ => .completed
  | .error _ => .failed

theorem moveFinished_error {q : Queue D R P} {job : Job D R P} {e : KioError}
    (h : job.getMetrics = .error e) (token : JobToken) (returned : Except CaughtError R)
    (clock : Clock) : q.moveFinished job token returned clock = (.error e, q) := by
  simp only [moveFinished, h]

theorem moveFinished_missing {q : Queue D R P} (hpause : q.isPaused = false) {job : Job D R P}
    {metrics : JobMetrics} (hm : job.getMetrics = .ok metrics)
    (hr : q.store.getJob (job.id.getD 0) = none) (token : JobToken)
    (returned : Except CaughtError R) (clock : Clock) :
    q.moveFinished job token returned clock = (.error .jobNotFound, q) := by
  cases returned <;>
    simp only [moveFinished, hm, moveJobToFinishedOrFailed_missing hpause hr, Except.map]

theorem moveFinished_spec {q : Queue D R P} (hpause : q.isPaused = false) {job r : Job D R P}
    {metrics : JobMetrics} (hm : job.getMetrics = .ok metrics)
    (hr : q.store.getJob (job.id.getD 0) = some r) (token : JobToken)
    (returned : Except CaughtError R) (clock : Clock) :
    ∃ t r', q.moveFinished job token returned clock =
        (.ok (finishedState returned, r'), { q with store := t }) ∧
      Finished q.store t (job.id.getD 0) r r' := by
  cases returned with
  | ok result =>
    obtain ⟨t, r', heq, hfin⟩ := moveJobToFinishedOrFailed_spec hpause hr
      clock.utc.timestampMicros token (Or.inr rfl : JobState.completed = .failed ∨ _)
      (.success result (runMetrics job metrics clock.utc)) none clock
    exact ⟨t, r', by simp only [moveFinished, hm, heq, Except.map, finishedState], hfin⟩
  | error err =>
    obtain ⟨t, r', heq, hfin⟩ := moveJobToFinishedOrFailed_spec hpause hr
      clock.utc.timestampMicros token (Or.inl rfl : JobState.failed = .failed ∨ _)
      (.failed (failureDetails job err).1) (failureDetails job err).2 clock
    exact ⟨t, r', by simp only [moveFinished, hm, heq, Except.map, finishedState], hfin⟩

def followUp (q : Queue D R P) (jobId : ℕ) (state : JobState) (after : Job D R P)
    (entry : JobMeta D R P) (clock : Clock) : KioResult Unit × Queue D R P :=
  if state = .completed then q.repeatOrCleanUp jobId after entry clock
  else q.retryOrCleanUp jobId after entry clock

/-- The time of the next attempt, if there is one, can be computed. -/
def nextAttemptComputable (q : Queue D R P) (state : JobState) (after : Job D R P)
    (entry : JobMeta D R P) (clock : Clock) : Bool :=
  let attempts := predU64 after.attemptsMade
  if entry.job.opts.attempts ≤ after.attemptsMade then true
  else if state = .completed then
    after.opts.repeat_.all fun repeatOpts =>
      (repeatOpts.nextOccurrence q.backoff attempts clock.utc).isOk
  else
    entry.job.opts.backoff.all fun backoffJobOpts =>
      (q.calculateNextDelayMs backoffJobOpts (castSigned attempts)).all fun nextDelay =>
        (clock.utc.addMillis nextDelay).isOk

theorem isOk_followUp (q : Queue D R P) (jobId : ℕ) (state : JobState) (after : Job D R P)
    (entry : JobMeta D R P) (clock : Clock) :
    (q.followUp jobId state after entry clock).1.isOk =
      q.nextAttemptComputable state after entry clock := by
  unfold followUp nextAttemptComputable
  by_cases hlt : after.attemptsMade < entry.job.opts.attempts
  · have hle : ¬ entry.job.opts.attempts ≤ after.attemptsMade := by omega
    have hne : after.attemptsMade ≠ entry.job.opts.attempts := by omega
    simp only [if_neg hle]
    split_ifs with hstate
    · simp only [repeatOrCleanUp, if_pos hlt]
      cases after.opts.repeat_ with
      | none => rfl
      | some repeatOpts =>
        simp only [retryJob, Option.all_some]
        split <;> rename_i hnext <;> rw [hnext]
        · rfl
        · rfl
        · split_ifs <;> rfl
    · simp only [retryOrCleanUp, if_pos hlt, if_neg hne]
      cases entry.job.opts.backoff with
      | none => rfl
      | some backoffJobOpts =>
        simp only [retryJob, retryFailed, Option.all_some]
        cases q.calculateNextDelayMs backoffJobOpts (castSigned (predU64 after.attemptsMade)) with
        | none => rfl
        | some nextDelay =>
          simp only [Option.all_some]
          cases clock.utc.addMillis nextDelay <;> rfl
  · simp only [if_pos (not_lt.mp hlt)]
    split_ifs with hstate
    · rw [repeatOrCleanUp, if_neg hlt]
      rfl
    · simp only [retryOrCleanUp, if_neg hlt]
      split_ifs <;> rfl

/-- Without interruption the two halves make up `process_job`. -/
theorem processJob_eq (q : Queue D R P) (job : Job D R P) (token : JobToken) (workerId : Uuid)
    (returned : Except CaughtError R) (clock : Clock) :
    q.processJob job token workerId returned clock =
      match q.moveFinished job token returned clock with
      | (.error e, q) => (.error e, q)
      | (.ok (state, after), q) =>
        q.settle (job.id.getD 0) workerId state fun q entry =>
          q.followUp (job.id.getD 0) state after entry clock := by
  cases hm : job.getMetrics with
  | error e => simp only [processJob, moveFinished, hm]
  | ok metrics =>
    cases returned with
    | ok result =>
      simp only [processJob, moveFinished, hm, followUp]
      split <;> rename_i heq <;> simp only [heq, Except.map]
      rfl
    | error err =>
      simp only [processJob, moveFinished, hm, followUp]
      split <;> rename_i heq <;> simp only [heq, Except.map]
      rfl

/-! ### What the two halves leave alone -/

theorem sameFlags_moveFinished (q : Queue D R P) (job : Job D R P) (token : JobToken)
    (returned : Except CaughtError R) (clock : Clock) :
    SameFlags q.store (q.moveFinished job token returned clock).2.store := by
  unfold moveFinished
  simp only
  split
  · exact .refl _
  · split <;> exact sameFlags_moveJobToFinishedOrFailed _ _ _ _ _ _ _ _

/-- Retention deletes no record but that of the job itself. -/
theorem cleanUpJob_keeps (q : Queue D R P) (id : ℕ)
    (removeOptions : Option RemoveOnCompletionOrFailure) (clock : Clock) :
    SameFlags q.store (q.cleanUpJob id removeOptions clock).store ∧
      ∀ j, j ≠ id → (q.cleanUpJob id removeOptions clock).store.recordView j =
        q.store.recordView j := by
  have hremove : ∀ s : InMemoryStore D R P, SameFlags s (s.remove (.job id)) ∧ ∀ j, j ≠ id →
      (s.remove (.job id)).recordView j = s.recordView j := by
    intro s
    refine ⟨⟨rfl, rfl⟩, fun j hj => ?_⟩
    simp [recordView, getJob, InMemoryStore.remove, RecordMap.get_remove, hj]
  unfold cleanUpJob
  split
  · exact ⟨.refl _, fun _ _ => rfl⟩
  · split_ifs
    · exact hremove _
    · exact ⟨.refl _, fun _ _ => rfl⟩
  · split_ifs
    · exact hremove _
    · exact ⟨.refl _, fun _ _ => rfl⟩
  · next keep =>
    have hage : SameFlags q.store (keep.age.elim q.store fun secs =>
        q.store.expire (.job id) secs clock.instant) := by
      cases keep.age <;> exact ⟨rfl, rfl⟩
    have hrec : (keep.age.elim q.store fun secs =>
        q.store.expire (.job id) secs clock.instant).recordView = q.store.recordView := by
      cases keep.age with
      | none => rfl
      | some secs => exact (q.store.agree_expire (.job id) secs clock.instant).record
    simp only
    split_ifs
    · obtain ⟨hflags, hkeep⟩ := hremove (keep.age.elim q.store fun secs =>
        q.store.expire (.job id) secs clock.instant)
      exact ⟨hage.trans hflags, fun j hj => (hkeep j hj).trans (congrFun hrec j)⟩
    · exact ⟨hage, fun j _ => congrFun hrec j⟩

/-- What follows a finished job: it may be put back once, and its record may be deleted. -/
structure FollowedUp (s t : InMemoryStore D R P) (id : ℕ) : Prop where
  shelved : ∀ j, t.shelved j ≤ s.shelved j + if j = id then 1 else 0
  record : ∀ j, t.recordView j = s.recordView j ∨ j = id ∧ t.recordView j = none
  cached : t.storedMetrics.isPaused = s.storedMetrics.isPaused
  flags : SameFlags s t

theorem FollowedUp.refl (s : InMemoryStore D R P) (id : ℕ) : FollowedUp s s id :=
  ⟨fun _ => Nat.le_add_right _ _, fun _ => Or.inl rfl, rfl, .refl s⟩

theorem retryJob_followedUp (q : Queue D R P) (id : ℕ) (opts : RetryOptions) (attempts : ℕ)
    (clock : Clock) :
    ∃ t, (q.retryJob id opts attempts clock).2 = { q with store := t } ∧
      FollowedUp q.store t id := by
  obtain ⟨t, ht, h⟩ := q.retryJob_spec id opts attempts clock
  have hflags := q.sameFlags_retryJob id opts attempts clock
  rw [ht] at hflags
  exact ⟨t, ht, h.shelved, fun j => Or.inl (congrFun h.record j), h.cached, hflags⟩

theorem cleanUpJob_followedUp (q : Queue D R P) (id : ℕ)
    (removeOptions : Option RemoveOnCompletionOrFailure) (clock : Clock) :
    ∃ t, q.cleanUpJob id removeOptions clock = { q with store := t } ∧
      FollowedUp q.store t id := by
  obtain ⟨t, ht, h⟩ := q.cleanUpJob_spec id removeOptions clock
  obtain ⟨hflags, hkeep⟩ := q.cleanUpJob_keeps id removeOptions clock
  rw [ht] at hflags hkeep
  refine ⟨t, ht, fun j => ?_, fun j => ?_, h.cached, hflags⟩
  · rw [h.shelved]
    exact Nat.le_add_right _ _
  · by_cases hj : j = id
    · exact (h.record j).imp_right fun hnone => ⟨hj, hnone⟩
    · exact Or.inl (hkeep j hj)

theorem followUp_followStep (q : Queue D R P) (id : ℕ) (state : JobState) (after : Job D R P)
    (entry : JobMeta D R P) (clock : Clock) :
    FollowStep q id after.attemptsMade entry.job.opts.attempts clock
      (q.followUp id state after entry clock).2 := by
  unfold followUp
  split_ifs
  · exact q.repeatOrCleanUp_followStep id after entry clock
  · exact q.retryOrCleanUp_followStep id after entry clock

theorem followUp_spec (q : Queue D R P) (id : ℕ) (state : JobState) (after : Job D R P)
    (entry : JobMeta D R P) (clock : Clock) :
    ∃ t, (q.followUp id state after entry clock).2 = { q with store := t } ∧
      FollowedUp q.store t id := by
  have hstep := q.followUp_followStep id state after entry clock
  generalize (q.followUp id state after entry clock).2 = q' at hstep
  cases hstep with
  | skip => exact ⟨q.store, rfl, .refl _ _⟩
  | retry opts n _ => exact q.retryJob_followedUp id opts n clock
  | cleanUp removeOptions => exact q.cleanUpJob_followedUp id removeOptions clock

theorem isPaused_settle (q : Queue D R P) (id : ℕ) (workerId : Uuid) (state : JobState)
    {follow : Queue D R P → JobMeta D R P → KioResult Unit × Queue D R P}
    (hfollow : ∀ q entry, (follow q entry).2.store.isPaused = q.store.isPaused) :
    (q.settle id workerId state follow).2.store.isPaused = q.store.isPaused := by
  cases hent : q.jobsInProgress.get? id with
  | none => simp only [settle, hent]
  | some entry =>
    have hflag := hfollow { q with jobsInProgress := q.jobsInProgress.remove id } entry
    simp only [settle, hent]
    split
    · next heq =>
      rw [heq] at hflag
      exact hflag
    · next heq =>
      rw [heq] at hflag
      cases entry.handle <;> exact hflag

theorem isPaused_processJob (q : Queue D R P) (job : Job D R P) (token : JobToken)
    (workerId : Uuid) (returned : Except CaughtError R) (clock : Clock) :
    (q.processJob job token workerId returned clock).2.store.isPaused = q.store.isPaused := by
  have hmove := (q.sameFlags_moveFinished job token returned clock).isPaused
  rw [processJob_eq]
  cases hm : q.moveFinished job token returned clock with
  | mk res q' =>
    rw [hm] at hmove
    cases res with
    | error e => exact hmove
    | ok out =>
      refine (isPaused_settle q' _ workerId out.1 fun q entry => ?_).trans hmove
      obtain ⟨t, ht, hf⟩ := q.followUp_spec (job.id.getD 0) out.1 out.2 entry clock
      rw [ht]
      exact hf.flags.isPaused

end Queue

end Kiomq
