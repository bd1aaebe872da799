import Kiomq.Queue.Transitions

/-!
# What a lock protects

A worker that has lost the lock of a job to another worker must not be able to extend the
lock or to finish the job any more. `extend_lock` compares the token of the worker with
the lock. `move_job_to_finished_or_failed` takes the token but does not look at it, so it
refuses a call only for a job without a record.
-/

namespace Kiomq

open Foundations InMemoryStore

variable {D R P : Type}

namespace Queue

/-! ### Extending a lock -/

def extendLock (q : Queue D R P) (jobId lockDuration : ℕ) (token : JobToken) (clock : Clock) :
    KioResult Bool × Queue D R P :=
  let previous := q.store.getToken jobId clock.instant
  if previous.1 = some token then
    let s := previous.2.setLock (.lock jobId) (some token) lockDuration clock.instant
    (.ok true, { q with store := s.removeItem .stalled jobId })
  else (.ok false, { q with store := previous.2 })

theorem getToken_fst_iff (s : InMemoryStore D R P) (id now : ℕ) (token : JobToken) :
    (s.getToken id now).1 = some token ↔
      ∃ found ∈ s.locks.inner.get? (.lock id),
        found.isExpired now = false ∧ found.get = .token token := by
  simp only [getToken, TimedMap.get]
  cases s.locks.inner.get? (.lock id) with
  | none => simp
  | some found =>
    cases hexp : found.isExpired now <;> cases hlock : found.get <;> simp [hexp, hlock]

theorem get?_getToken_of_ne (s : InMemoryStore D R P) {id jobId : ℕ} (now : ℕ) (h : id ≠ jobId) :
    (s.getToken jobId now).2.locks.inner.get? (.lock id) = s.locks.inner.get? (.lock id) := by
  have hne : CollectionSuffix.lock id ≠ .lock jobId := by simpa using h
  simp only [getToken, TimedMap.get]
  split
  · rfl
  · split_ifs
    · simp only [TimedMap.remove, OrderedMap.get?_remove, if_neg hne]
    · rfl

theorem get?_extendLock_of_ne (q : Queue D R P) {id jobId : ℕ} (lockDuration : ℕ)
    (token : JobToken) (clock : Clock) (h : id ≠ jobId) :
    (q.extendLock jobId lockDuration token clock).2.store.locks.inner.get? (.lock id) =
      q.store.locks.inner.get? (.lock id) := by
  have hne : CollectionSuffix.lock id ≠ .lock jobId := by simpa using h
  rw [← get?_getToken_of_ne q.store clock.instant h]
  unfold extendLock
  dsimp only
  split_ifs
  · simp only [removeItem, setLock, TimedMap.get?_inner_insertExpirable, if_neg hne]
  · rfl

/-- An expired lock is gone, a lock of the same token starts anew, and any other lock stays. -/
theorem get?_extendLock (q : Queue D R P) (id lockDuration : ℕ) (token : JobToken)
    (clock : Clock) :
    (q.extendLock id lockDuration token clock).2.store.locks.inner.get? (.lock id) =
      (q.store.locks.inner.get? (.lock id)).bind fun found =>
        if found.isExpired clock.instant then none
        else if found.get = .token token then
          some (if q.store.locks.disableExpiration then .constant (.token token)
            else .expirable (.token token) (clock.instant + lockDuration))
        else some found := by
  cases hget : q.store.locks.inner.get? (.lock id) with
  | none =>
    have hprev : q.store.getToken id clock.instant = (none, q.store) := by
      simp [getToken, TimedMap.get, hget]
    simp [extendLock, hprev, hget]
  | some found =>
    cases hexp : found.isExpired clock.instant with
    | true =>
      have hprev : q.store.getToken id clock.instant =
          (none, { q.store with locks := q.store.locks.remove (.lock id) }) := by
        simp [getToken, TimedMap.get, hget, hexp]
      simp [extendLock, hprev, hexp, TimedMap.remove, OrderedMap.get?_remove]
    | false =>
      cases hlock : found.get with
      | stallCheck =>
        have hprev : q.store.getToken id clock.instant = (none, q.store) := by
          simp [getToken, TimedMap.get, hget, hexp, hlock]
        simp [extendLock, hprev, hexp, hlock, hget]
      | token held =>
        have hprev : q.store.getToken id clock.instant = (some held, q.store) := by
          simp [getToken, TimedMap.get, hget, hexp, hlock]
        by_cases hheld : held = token
        · simp [extendLock, hprev, hexp, hlock, hheld, removeItem, setLock,
            TimedMap.get?_inner_insertExpirable]
        · simp [extendLock, hprev, hexp, hlock, hheld, hget]

/-! ### Finishing a job -/

/-- The two stores agree in the record of the job, all collections, locks and counters. -/
structure Unchanged (s t : InMemoryStore D R P) (id : ℕ) : Prop where
  record : t.getJob id = s.getJob id
  active : t.active.values = s.active.values
  waiting : t.waiting.values = s.waiting.values
  paused : t.paused.values = s.paused.values
  prioritized : t.prioritized = s.prioritized
  delayed : t.delayed = s.delayed
  completed : t.completed = s.completed
  failed : t.failed = s.failed
  stalled : t.stalled = s.stalled
  locks : t.locks = s.locks
  counters : t.idCounter = s.idCounter ∧ t.priorityCounter = s.priorityCounter ∧
    t.processing = s.processing

/-- The call has returned an error and has had no effect. -/
def Refused (q : Queue D R P) (id : ℕ) (out : KioResult (Job D R P) × Queue D R P) : Prop :=
  out.1.isOk = false ∧ Unchanged q.store out.2.store id

/-- A call succeeds just if the job has a record, whatever the token. -/
theorem isOk_moveJobToFinishedOrFailed (q : Queue D R P) (id : ℕ) (ts : ℤ) (token : JobToken)
    {next : JobState} (hnext : next = .failed ∨ next = .completed) (processed : ProcessedResult R)
    (backtrace : Option Trace) (clock : Clock) :
    (q.moveJobToFinishedOrFailed id ts token next processed backtrace clock).1.isOk =
      (q.store.getJob id).isSome := by
  cases hr : q.store.getJob id with
  | none =>
    cases hpause : q.isPaused with
    | true =>
      simp [moveJobToFinishedOrFailed, moveJobToState, hpause, hr, Except.isOk, Except.toBool]
    | false => rw [moveJobToFinishedOrFailed_missing hpause hr]; rfl
  | some r =>
    cases hpause : q.isPaused with
    | true =>
      simp [moveJobToFinishedOrFailed, moveJobToState, hpause, hr, Except.isOk, Except.toBool]
    | false =>
      obtain ⟨t, r', heq, -⟩ := moveJobToFinishedOrFailed_spec hpause hr ts token hnext processed
        backtrace clock
      rw [heq]
      rfl

theorem moveJobToFinishedOrFailed_of_none {q : Queue D R P} {id : ℕ}
    (hr : q.store.getJob id = none) (ts : ℤ) (token : JobToken) (next : JobState)
    (processed : ProcessedResult R) (backtrace : Option Trace) (clock : Clock) :
    (q.moveJobToFinishedOrFailed id ts token next processed backtrace clock).2 = q := by
  cases hpause : q.isPaused with
  | true => simp [moveJobToFinishedOrFailed, moveJobToState, hpause, hr]
  | false => rw [moveJobToFinishedOrFailed_missing hpause hr]

/-- While a lock is live with a token, a call with another token is refused just if the job
has no record. Neither the lock nor the token matters. -/
theorem finish_refused_iff (q : Queue D R P) (id : ℕ) (ts : ℤ) (token other : JobToken)
    (next : JobState) (processed : ProcessedResult R) (backtrace : Option Trace) (clock : Clock)
    (_hlock : (q.store.getToken id clock.instant).1 = some token) (_hother : other ≠ token)
    (hnext : next = .failed ∨ next = .completed) :
    q.Refused id (q.moveJobToFinishedOrFailed id ts other next processed backtrace clock) ↔
      q.store.getJob id = none := by
  have hok := q.isOk_moveJobToFinishedOrFailed id ts other hnext processed backtrace clock
  constructor
  · rintro ⟨herr, -⟩
    rw [herr] at hok
    simpa using hok.symm
  · intro hr
    constructor
    · rw [hok, hr]
      rfl
    · rw [moveJobToFinishedOrFailed_of_none hr]
      exact ⟨rfl, rfl, rfl, rfl, rfl, rfl, rfl, rfl, rfl, rfl, rfl, rfl, rfl⟩

def waitingJob : Queue ℕ Unit Unit :=
  ((Queue.new (.new none "mail") none 1).bulkAdd [("a", none, 7)] ⟨0, 0⟩).2

def lockedJob : Queue ℕ Unit Unit := (waitingJob.moveToActive ⟨1, 1, 1⟩ {} ⟨0, 0⟩).2

def lockedGhost : Queue ℕ Unit Unit :=
  { lockedJob with store := lockedJob.store.remove (.job 1) }

/-- A call with another token for a job without a record is refused. -/
theorem lockedGhost_refused :
    (lockedGhost.store.getToken 1 10).1 = some ⟨1, 1, 1⟩ ∧
      lockedGhost.Refused 1 (lockedGhost.moveJobToFinishedOrFailed 1 5 ⟨2, 2, 2⟩ .completed
        (.success () {}) none ⟨0, 10⟩) :=
  ⟨by decide +kernel, (finish_refused_iff lockedGhost 1 5 ⟨1, 1, 1⟩ ⟨2, 2, 2⟩ .completed
    (.success () {}) none ⟨0, 10⟩ (by decide +kernel) (by decide) (Or.inr rfl)).mpr
      (by decide +kernel)⟩

/-- Worker 2 completes the job that worker 1 has locked. -/
theorem lockedJob_finished_by_other :
    (lockedJob.store.getToken 1 10).1 = some ⟨1, 1, 1⟩ ∧
      (lockedJob.moveJobToFinishedOrFailed 1 5 ⟨2, 2, 2⟩ .completed (.success () {}) none
        ⟨0, 10⟩).1.isOk = true ∧
      (lockedJob.moveJobToFinishedOrFailed 1 5 ⟨2, 2, 2⟩ .completed (.success () {}) none
        ⟨0, 10⟩).2.store.completed.values = [1] := by
  decide +kernel

end Queue

end Kiomq
