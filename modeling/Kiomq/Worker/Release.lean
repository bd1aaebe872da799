import Kiomq.Worker.Verdict

/-!
# What a task gives back

A task holds an entry in the map of jobs in progress, and the counter of jobs in processing
has been raised for it. Both are given back at the very end of `process_job`. The record of
the job may be gone by then: the first store call fails, the function returns its error at
once, and the entry and the counter are left as they are.
-/

namespace Kiomq

open Foundations InMemoryStore

variable {D R P : Type}

/-- The function has returned, with a value or with an error. -/
def Returned {α : Type*} (x : KioResult α) : Prop := ∀ message, x ≠ .error (.panicked message)

theorem returned_of_isOk {α : Type*} {x : KioResult α} (h : x.isOk = true) : Returned x := by
  rintro message rfl
  cases h

namespace Queue

/-- The entry of the job is gone and the counter of jobs in processing is one lower. -/
structure Released (q q' : Queue D R P) (id : ℕ) : Prop where
  entry : q'.jobsInProgress.get? id = none
  processing : q'.store.processing + 1 = q.store.processing

theorem processing_perform (q : Queue D R P) (id : ℕ) (clock : Clock) (v : Verdict) :
    (v.perform q id clock).store.processing = q.store.processing := by
  cases v with
  | repeated time =>
    simp only [Verdict.perform]
    split_ifs <;> exact (sameFlags_addItem _ _ _ _ _).processing
  | retried time =>
    exact ((sameFlags_addItem _ _ _ _ _).trans (sameFlags_removeItem _ _ _)).processing
  | cleanUp policy => exact (q.cleanUpJob_keeps id policy clock).1.processing
  | leave => rfl

theorem jobsInProgress_perform (q : Queue D R P) (id : ℕ) (clock : Clock) (v : Verdict) :
    (v.perform q id clock).jobsInProgress = q.jobsInProgress := by
  cases v with
  | repeated time =>
    simp only [Verdict.perform]
    split_ifs <;> rfl
  | retried time => rfl
  | cleanUp policy =>
    obtain ⟨t, ht, -⟩ := q.cleanUpJob_spec id policy clock
    rw [Verdict.perform, ht]
  | leave => rfl

theorem released_perform {q : Queue D R P} {t : InMemoryStore D R P} {id : ℕ}
    {handle : Option ℕ} (hhandle : handle ≠ none) (hproc : 0 < q.store.processing)
    (ht : t.processing = q.store.processing) (v : Verdict) (workerId : Uuid) (state : JobState)
    (clock : Clock) :
    q.Released ((v.perform (q.taken id t) id clock).releaseTask handle workerId id state) id := by
  obtain ⟨n, hn⟩ := Nat.exists_eq_add_of_lt hproc
  rw [Nat.zero_add] at hn
  cases handle with
  | none => exact absurd rfl hhandle
  | some h =>
    constructor
    · change (v.perform (q.taken id t) id clock).jobsInProgress.get? id = none
      rw [jobsInProgress_perform]
      exact (OrderedMap.get?_remove _ _ _).trans (if_pos rfl)
    · have hcount : (v.perform (q.taken id t) id clock).store.processing = n + 1 := by
        rw [processing_perform]
        exact ht.trans hn
      rw [hn]
      exact congrArg (· + 1) (processing_lower hcount workerId id state)

/-- A task whose entry holds a handle is released when it returns just if the record of its
job is still there. -/
theorem processJob_released_iff {q : Queue D R P} {job : Job D R P} {entry : JobMeta D R P}
    (hent : q.jobsInProgress.get? (job.id.getD 0) = some entry) (hhandle : entry.handle ≠ none)
    (hproc : 0 < q.store.processing) (token : JobToken) (workerId : Uuid)
    (returned : Except CaughtError R) (clock : Clock) :
    (Returned (q.processJob job token workerId returned clock).1 →
        q.Released (q.processJob job token workerId returned clock).2 (job.id.getD 0)) ↔
      (job.getMetrics.isOk = true → q.store.jobExists (job.id.getD 0) = true) := by
  cases q.firstHalf job token returned clock with
  | @panics e hm =>
    -- before it calls the callback
    obtain ⟨message, rfl⟩ := onlyPanics_getMetrics job e hm
    rw [processJob_panics hm, hm]
    exact iff_of_true (fun hret => absurd rfl (hret message)) (fun hok => by cases hok)
  | lost hok hr =>
    rw [processJob_lost hok hr]
    have hret : Returned (.error .jobNotFound : KioResult Unit) := by
      intro message h
      cases h
    have hmissing : q.store.jobExists (job.id.getD 0) = false := by simp [jobExists, hr]
    rw [hmissing]
    refine iff_of_false (fun h => ?_) (fun h => Bool.false_ne_true (h hok))
    exact Option.some_ne_none entry (hent.symm.trans (h hret).entry)
  | @readBack r after t hok hr hmove hread =>
    have hex : q.store.jobExists (job.id.getD 0) = true := by simp [jobExists, hr]
    have hjudges : q.Judges job token returned clock t after entry := ⟨hmove, hent⟩
    refine iff_of_true ?_ fun _ => hex
    rw [hjudges.processJob_eq]
    cases hv : q.verdict (finishedState returned) after entry clock with
    | error e =>
      obtain ⟨message, rfl⟩ := q.onlyPanics_verdict _ after entry clock e hv
      exact fun hret => absurd rfl (hret message)
    | ok v =>
      intro _
      exact released_perform hhandle hproc hread.processing v workerId _ clock

theorem runningJob_released :
    let task := (System.oneRunning {}).tasks.head (by decide +kernel)
    let out := (System.oneRunning {}).queue.processJob task.job task.token 0 (.ok ()) ⟨5, 0⟩
    Returned out.1 ∧ (System.oneRunning {}).queue.Released out.2 1 := by
  intro task out
  have hret : Returned out.1 := returned_of_isOk (by decide +kernel)
  have hent : (System.oneRunning {}).queue.jobsInProgress.get? (task.job.id.getD 0) =
      some (((System.oneRunning {}).queue.jobsInProgress.get? 1).get (by decide +kernel)) :=
    (Option.some_get _).symm
  have hiff := processJob_released_iff hent (by decide +kernel) (by decide +kernel) task.token 0
    (.ok ()) ⟨5, 0⟩
  exact ⟨hret, hiff.mpr (fun _ => by decide +kernel) hret⟩

/-- The record is deleted while the callback runs: the task ends with an error, and its entry
and the raised counter stay. -/
theorem lostRecord_not_released :
    let w := System.oneRunning {}
    let task := w.tasks.head (by decide +kernel)
    let q := { w.queue with store := w.queue.store.remove (.job 1) }
    let out := q.processJob task.job task.token 0 (.ok ()) ⟨5, 0⟩
    out.1 = .error .jobNotFound ∧ (q.store.processing, out.2.store.processing) = (1, 1) ∧
      (out.2.jobsInProgress.get? 1).isSome = true ∧ Returned out.1 ∧ ¬ q.Released out.2 1 := by
  intro w task q out
  have herr : out.1 = .error .jobNotFound := by decide +kernel
  have hcount : (q.store.processing, out.2.store.processing) = (1, 1) := by decide +kernel
  have hentry : (out.2.jobsInProgress.get? 1).isSome = true := by decide +kernel
  refine ⟨herr, hcount, hentry, ?_, ?_⟩
  · rw [herr]
    intro message h
    cases h
  · intro hreleased
    rw [hreleased.entry] at hentry
    cases hentry

end Queue

end Kiomq
