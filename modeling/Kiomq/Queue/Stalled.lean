import Kiomq.Queue.LockOwnership

/-!
# Recovery of stalled jobs

`make_stalled_jobs_wait` is meant to work in two phases: mark the active jobs without a
lock as stalled, and on the next call move the marked jobs back to the wait list or to
the failed set. The code recovers the marked jobs only when there are none, and marks
active jobs only when there are marked ones, so a job whose lock has expired is never
recovered.
-/

namespace Kiomq

open Foundations

variable {D R P : Type}

namespace InMemoryStore

/-- The ids from position `start` to position `stop`, both included; nothing if one of the
two positions is not there. -/
def idRange (ids : List ℕ) (start : ℕ) (stop : Option ℕ) : List ℕ :=
  let stop := stop.getD (ids.length - 1)
  if start < ids.length ∧ stop < ids.length then (ids.take (stop + 1)).drop start else []

def getJobIdsInState (s : InMemoryStore D R P) (state : JobState) (start stop : Option ℕ) :
    List ℕ :=
  let start := start.getD 0
  match state with
  | .wait => idRange s.waiting.values start stop
  | .prioritized => idRange s.prioritized.values start stop
  | .stalled => idRange s.stalled.keys start stop
  | .active => idRange s.active.values start stop
  | .paused => idRange s.paused.values start stop
  | .completed => idRange s.completed.values start stop
  | .failed => idRange s.failed.values start stop
  | .delayed => idRange s.delayed.values start stop
  | _ => []

theorem idRange_all (ids : List ℕ) : idRange ids 0 none = ids := by
  unfold idRange
  cases ids with
  | nil => rfl
  | cons id ids => simp

end InMemoryStore

namespace Queue

/-- The recovery of one marked job: whether it went to the failed set, or `none` if its
lock is not there. -/
def recoverStalled (q : Queue D R P) (opts : WorkerOpts) (target : JobState) (id : ℕ)
    (clock : Clock) : KioResult (Option Bool) × Queue D R P :=
  let lock := q.store.existsIn (.lock id) id clock.instant
  if lock.1 then
    let stalledCount := lock.2.incr (.job id) 1 (some .stalledCounter)
    let s := stalledCount.2
    let attemptsMade := (s.getCounter (.job id) (some .attemptsMade)).getD 0
    let prev := (s.getState id).getD default
    let q := { q with store := s }
    if opts.maxStalledCount < stalledCount.1 then
      let failedReason : FailedDetails :=
        { run := attemptsMade + 1, reason := "job stalled more than allowable limit" }
      let out := q.moveJobToState id prev .failed (some (.failed failedReason)) none none clock
      (out.1.map fun _ => some true, out.2)
    else
      let out := q.moveJobToState id .active target none none none clock
      (out.1.map fun _ => some false, out.2)
  else (.ok none, { q with store := lock.2 })

/-- The loop over the marked jobs; the answer lists the failed and the recovered ids. -/
def recoverAllStalled (q : Queue D R P) (opts : WorkerOpts) (target : JobState) (clock : Clock) :
    List ℕ → KioResult (List ℕ × List ℕ) × Queue D R P
  | [] => (.ok ([], []), q)
  | id :: ids =>
    match q.recoverStalled opts target id clock with
    | (.error e, q) => (.error e, q)
    | (.ok moved, q) =>
      let rest := q.recoverAllStalled opts target clock ids
      (rest.1.map fun lists =>
        match moved with
        | some true => (id :: lists.1, lists.2)
        | some false => (lists.1, id :: lists.2)
        | none => lists, rest.2)

/-- Mark an active job whose lock is gone. -/
def markStalled (s : InMemoryStore D R P) (id : ℕ) (clock : Clock) : InMemoryStore D R P :=
  let lock := s.existsIn (.lock id) id clock.instant
  if lock.1 then lock.2
  else (lock.2.addItem .stalled id none true).removeItem .active id

def makeStalledJobsWait (q : Queue D R P) (opts : WorkerOpts) (clock : Clock) :
    KioResult (List ℕ × List ℕ) × Queue D R P :=
  let target := q.getTargetList.2
  let check := q.store.existsIn .stalledCheck 0 clock.instant
  if check.1 then (.ok ([], []), { q with store := check.2 })
  else
    let s := check.2.setLock .stalledCheck none opts.stalledInterval clock.instant
    let stalled := s.getJobIdsInState .stalled none none
    if stalled.isEmpty then { q with store := s }.recoverAllStalled opts target clock stalled
    else
      let active := s.getJobIdsInState .active none none
      (.ok ([], []), { q with store := active.foldl (fun s id => markStalled s id clock) s })

/-- The store after the check: the marker is set, and active jobs are marked if there are
marked ones already. -/
def afterStalledCheck (s : InMemoryStore D R P) (opts : WorkerOpts) (clock : Clock) :
    InMemoryStore D R P :=
  let check := s.existsIn .stalledCheck 0 clock.instant
  if check.1 then check.2
  else
    let t := check.2.setLock .stalledCheck none opts.stalledInterval clock.instant
    if s.stalled.keys.isEmpty then t
    else s.active.values.foldl (fun t id => markStalled t id clock) t

/-- The call never fails and recovers no job: its recovery loop runs over an empty list. -/
theorem makeStalledJobsWait_eq (q : Queue D R P) (opts : WorkerOpts) (clock : Clock) :
    q.makeStalledJobsWait opts clock =
      (.ok ([], []), { q with store := afterStalledCheck q.store opts clock }) := by
  have hstalled : ∀ s : InMemoryStore D R P,
      s.getJobIdsInState .stalled none none = s.stalled.keys :=
    fun s => InMemoryStore.idRange_all _
  have hactive : ∀ s : InMemoryStore D R P,
      s.getJobIdsInState .active none none = s.active.values :=
    fun s => InMemoryStore.idRange_all _
  unfold makeStalledJobsWait afterStalledCheck
  simp only [hstalled, hactive]
  cases hcheck : (q.store.existsIn .stalledCheck 0 clock.instant).1 with
  | true => simp
  | false =>
    simp only [Bool.false_eq_true, if_false, InMemoryStore.existsIn, InMemoryStore.setLock]
    by_cases hkeys : q.store.stalled.keys = []
    · simp [hkeys, recoverAllStalled]
    · simp [hkeys]

/-! ### What a check leaves alone -/

/-- The record of the job and its place in every collection. -/
structure Kept (s t : InMemoryStore D R P) (id : ℕ) : Prop where
  record : t.getJob id = s.getJob id
  active : t.active.values.count id = s.active.values.count id
  stalled : t.stalled.containsKey id = s.stalled.containsKey id
  waiting : t.waiting = s.waiting
  paused : t.paused = s.paused
  prioritized : t.prioritized = s.prioritized
  delayed : t.delayed = s.delayed
  completed : t.completed = s.completed
  failed : t.failed = s.failed

theorem Kept.refl (s : InMemoryStore D R P) (id : ℕ) : Kept s s id :=
  ⟨rfl, rfl, rfl, rfl, rfl, rfl, rfl, rfl, rfl⟩

theorem Kept.trans {s t u : InMemoryStore D R P} {id : ℕ} (h : Kept s t id) (h' : Kept t u id) :
    Kept s u id :=
  ⟨h'.record.trans h.record, h'.active.trans h.active, h'.stalled.trans h.stalled,
    h'.waiting.trans h.waiting, h'.paused.trans h.paused, h'.prioritized.trans h.prioritized,
    h'.delayed.trans h.delayed, h'.completed.trans h.completed, h'.failed.trans h.failed⟩

/-- Marking touches only the job that is marked, which has no live lock. -/
theorem kept_markStalled (s : InMemoryStore D R P) (id : ℕ) (clock : Clock) {j : ℕ}
    (h : s.locks.live (.lock j) clock.instant = true) :
    Kept s (markStalled s id clock) j := by
  unfold markStalled
  have hfst : (s.existsIn (.lock id) id clock.instant).1 = s.locks.live (.lock id) clock.instant :=
    s.locks.containsKey_fst (.lock id) clock.instant
  cases hlive : s.locks.live (.lock id) clock.instant with
  | true =>
    rw [hlive] at hfst
    simp only [hfst, if_true]
    exact ⟨rfl, rfl, rfl, rfl, rfl, rfl, rfl, rfl, rfl⟩
  | false =>
    rw [hlive] at hfst
    simp only [hfst, Bool.false_eq_true, if_false]
    have hne : j ≠ id := by
      rintro rfl
      rw [h] at hlive
      simp at hlive
    refine ⟨rfl, ?_, ?_, rfl, rfl, rfl, rfl, rfl, rfl⟩
    · exact (s.active.count_values_filter_ne id j).trans (if_neg hne)
    · simp only [InMemoryStore.addItem, InMemoryStore.removeItem, InMemoryStore.existsIn,
        OrderedMap.containsKey_eq, OrderedMap.get?_insert, if_neg hne]

theorem live_markStalled (s : InMemoryStore D R P) (id : ℕ) (clock : Clock) (j : ℕ) :
    (markStalled s id clock).locks.live (.lock j) clock.instant =
      s.locks.live (.lock j) clock.instant := by
  unfold markStalled
  dsimp only
  split_ifs <;> exact s.locks.live_containsKey (.lock id) (.lock j) clock.instant

theorem kept_foldl_markStalled (ids : List ℕ) (s : InMemoryStore D R P) (clock : Clock) {j : ℕ}
    (h : s.locks.live (.lock j) clock.instant = true) :
    Kept s (ids.foldl (fun t id => markStalled t id clock) s) j := by
  induction ids generalizing s with
  | nil => exact Kept.refl s j
  | cons id ids ih =>
    rw [List.foldl_cons]
    apply (kept_markStalled s id clock h).trans
    apply ih
    rw [live_markStalled]
    exact h

theorem kept_afterStalledCheck (s : InMemoryStore D R P) (opts : WorkerOpts) (clock : Clock)
    {j : ℕ} (h : s.locks.live (.lock j) clock.instant = true) :
    Kept s (afterStalledCheck s opts clock) j := by
  unfold afterStalledCheck
  dsimp only
  split_ifs
  · exact ⟨rfl, rfl, rfl, rfl, rfl, rfl, rfl, rfl, rfl⟩
  · exact ⟨rfl, rfl, rfl, rfl, rfl, rfl, rfl, rfl, rfl⟩
  · have hkept : Kept s ((s.existsIn .stalledCheck 0 clock.instant).2.setLock .stalledCheck none
        opts.stalledInterval clock.instant) j := ⟨rfl, rfl, rfl, rfl, rfl, rfl, rfl, rfl, rfl⟩
    apply hkept.trans
    apply kept_foldl_markStalled
    rw [← h, ← s.locks.live_containsKey .stalledCheck (.lock j) clock.instant]
    have hne : CollectionSuffix.lock j ≠ .stalledCheck := by simp
    exact TimedMap.live_insertExpirable_of_ne _ _ _ _ _ hne

theorem getJob_afterStalledCheck (s : InMemoryStore D R P) (opts : WorkerOpts) (clock : Clock) :
    (afterStalledCheck s opts clock).getJob = s.getJob := by
  have hfold : ∀ (ids : List ℕ) (t : InMemoryStore D R P),
      (ids.foldl (fun t id => markStalled t id clock) t).getJob = t.getJob := by
    intro ids
    induction ids with
    | nil => exact fun t => rfl
    | cons id ids ih =>
      intro t
      rw [List.foldl_cons, ih]
      unfold markStalled
      dsimp only
      split_ifs <;> rfl
  unfold afterStalledCheck
  dsimp only
  split_ifs
  · rfl
  · rfl
  · exact hfold _ _

/-! ### Recovery -/

/-- The store after two consecutive checks. -/
def afterTwoChecks (q : Queue D R P) (opts : WorkerOpts) (first second : Clock) : Queue D R P :=
  ((q.makeStalledJobsWait opts first).2.makeStalledJobsWait opts second).2

def targetList (s : InMemoryStore D R P) : JobState → List ℕ
  | .paused => s.paused.values
  | _ => s.waiting.values

/-- The job has left the active list with its stalled counter raised, and is in the target
list or, past the limit, in the failed set. -/
def Recovered (q t : Queue D R P) (opts : WorkerOpts) (id : ℕ) (job : Job D R P) : Prop :=
  id ∉ t.store.active.values ∧
    ∃ job', t.store.getJob id = some job' ∧ job'.stalledCounter = job.stalledCounter + 1 ∧
      if job'.stalledCounter ≤ opts.maxStalledCount then
        id ∈ targetList t.store q.getTargetList.2
      else id ∈ t.store.failed.values

/-- Two checks recover the active jobs without a lock, and leave the jobs alone whose lock is
live at both of them. -/
def StalledRecovery (q : Queue D R P) (opts : WorkerOpts) (first second : Clock) : Prop :=
  (∀ id job, q.store.getJob id = some job → id ∈ q.store.active.values →
      q.store.locks.live (.lock id) first.instant = false →
      Recovered q (q.afterTwoChecks opts first second) opts id job) ∧
    ∀ id, q.store.locks.live (.lock id) first.instant = true →
      (q.makeStalledJobsWait opts first).2.store.locks.live (.lock id) second.instant = true →
      Kept q.store (q.afterTwoChecks opts first second).store id

/-- The stalled counter never grows, so the checks are right just if every active job that
has a record has a live lock. -/
theorem stalledRecovery_iff (q : Queue D R P) (opts : WorkerOpts) (first second : Clock) :
    q.StalledRecovery opts first second ↔
      ∀ id job, q.store.getJob id = some job → id ∈ q.store.active.values →
        q.store.locks.live (.lock id) first.instant = true := by
  have htwice : (q.afterTwoChecks opts first second).store =
      afterStalledCheck (afterStalledCheck q.store opts first) opts second := by
    simp only [afterTwoChecks, makeStalledJobsWait_eq]
  constructor
  · rintro ⟨hrecover, -⟩ id job hjob hactive
    by_contra hlive
    obtain ⟨-, job', hjob', hcount, -⟩ := hrecover id job hjob hactive (by simpa using hlive)
    rw [htwice, getJob_afterStalledCheck, getJob_afterStalledCheck, hjob] at hjob'
    obtain rfl := Option.some.inj hjob'
    omega
  · intro hlocks
    constructor
    · intro id job hjob hactive hlive
      rw [hlocks id job hjob hactive] at hlive
      simp at hlive
    · intro id hfirst hsecond
      rw [makeStalledJobsWait_eq] at hsecond
      rw [htwice]
      exact (kept_afterStalledCheck q.store opts first hfirst).trans
        (kept_afterStalledCheck _ opts second hsecond)

/-- Two checks after the lock has expired, which no marker suppresses, leave the job in the
active list with its counter at `0`. -/
theorem abandonedJob_not_recovered :
    lockedJob.store.locks.live (.lock 1) 30000 = false ∧
      lockedJob.store.locks.live .stalledCheck 30000 = false ∧
      (lockedJob.makeStalledJobsWait {} ⟨0, 30000⟩).2.store.locks.live .stalledCheck 60000 =
        false ∧
      (lockedJob.afterTwoChecks {} ⟨0, 30000⟩ ⟨0, 60000⟩).store.active.values = [1] ∧
      ((lockedJob.afterTwoChecks {} ⟨0, 30000⟩ ⟨0, 60000⟩).store.getJob 1).map
        Job.stalledCounter = some 0 := by
  decide +kernel

end Queue

end Kiomq
