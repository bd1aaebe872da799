import Kiomq.Worker.Verdict

/-!
# Retention at the end of a job

The retention policy is applied by comparing the attempts that were made with those that are
allowed, and not by looking whether the job really comes again. So a job that succeeds on an
early attempt without being repeated, or that fails with attempts left and no next time for a
retry, stays finished and keeps its record for ever.
-/

namespace Kiomq

open Foundations InMemoryStore

variable {D R P : Type}

namespace Queue

def retention (state : JobState) (opts : JobOptions) : Option RemoveOnCompletionOrFailure :=
  if state = .completed then opts.removeOnComplete else opts.removeOnFail

/-- The job is left in the state of its outcome. -/
def LeftFinished (q : Queue D R P) (job : Job D R P) (token : JobToken)
    (returned : Except CaughtError R) (clock : Clock) : Prop :=
  ∃ after q', q.moveFinished job token returned clock = (.ok (finishedState returned, after), q') ∧
    after.state = finishedState returned

/-- The task has called `clean_up_job` with `policy` as the last thing before its release. -/
structure CleanedUp (q : Queue D R P) (job : Job D R P) (token : JobToken) (workerId : Uuid)
    (returned : Except CaughtError R) (clock : Clock)
    (policy : Option RemoveOnCompletionOrFailure) : Prop where
  called : q.ending job token returned clock = .ok (some (.cleanUp policy))
  result : ∃ (q' : Queue D R P) (handle : Option ℕ),
    q.processJob job token workerId returned clock =
      (.ok (), (q'.cleanUpJob (job.id.getD 0) policy clock).releaseTask handle workerId
        (job.id.getD 0) (finishedState returned))
  gone : policy = some (.bool true) →
    (q.processJob job token workerId returned clock).2.store.jobExists (job.id.getD 0) = false

/-- A job that is left finished and does not come again has been cleaned up. -/
def RetentionApplied (q : Queue D R P) (job : Job D R P) (token : JobToken) (workerId : Uuid)
    (returned : Except CaughtError R) (clock : Clock) : Prop :=
  q.LeftFinished job token returned clock → q.comesAgain job token returned clock = false →
    ∃ entry, q.jobsInProgress.get? (job.id.getD 0) = some entry ∧
      q.CleanedUp job token workerId returned clock
        (retention (finishedState returned) entry.job.opts)

/-- After `made` attempts the job has no attempt left, or there is a time for the next one. A
job that has failed must have made exactly the allowed number of attempts. -/
def Settles (q : Queue D R P) (returned : Except CaughtError R) (recorded opts : JobOptions)
    (made : ℕ) (clock : Clock) : Prop :=
  match returned with
  | .ok _ => opts.attempts ≤ made ∨ ∃ time, q.nextRepetition recorded made clock = .ok (some time)
  | .error _ => made = opts.attempts ∨
      made < opts.attempts ∧ ∃ time, q.nextRetry opts made clock = .ok (some time)

/-- Finishing the job settles it, by its record and by the options in its entry. -/
def SettlesJob (q : Queue D R P) (job : Job D R P) (returned : Except CaughtError R)
    (clock : Clock) : Prop :=
  job.getMetrics.isOk = true → ∀ r, q.store.getJob (job.id.getD 0) = some r →
    q.Enters r (finishedState returned) →
      ∃ entry, q.jobsInProgress.get? (job.id.getD 0) = some entry ∧
        q.Settles returned r.opts entry.job.opts (q.attemptsAfter r) clock

/-- The verdict is one of the two that retention allows. -/
def Verdict.Final (state : JobState) (opts : JobOptions) (v : Verdict) : Prop :=
  v.comesAgain = true ∨ v = .cleanUp (retention state opts)

theorem final_elim_iff {x : KioResult (Option ℤ)} {again : ℤ → Verdict}
    (hagain : ∀ time, (again time).comesAgain = true) (state : JobState) (opts : JobOptions) :
    (∃ v, x.map (fun time => time.elim .leave again) = .ok v ∧ Verdict.Final state opts v) ↔
      ∃ time, x = .ok (some time) := by
  cases x with
  | error e => simp [Except.map]
  | ok found =>
    cases found with
    | none => simp [Except.map, Verdict.Final, Verdict.comesAgain]
    | some time => simp [Except.map, Verdict.Final, hagain]

theorem verdict_final_iff (q : Queue D R P) (returned : Except CaughtError R) (after : Job D R P)
    (entry : JobMeta D R P) (clock : Clock) :
    (∃ v, q.verdict (finishedState returned) after entry clock = .ok v ∧
        Verdict.Final (finishedState returned) entry.job.opts v) ↔
      q.Settles returned after.opts entry.job.opts after.attemptsMade clock := by
  cases returned with
  | ok result =>
    simp only [finishedState, verdict, Settles, if_true]
    split_ifs with hlt
    · rw [final_elim_iff (fun _ => rfl)]
      simp [hlt]
    · refine iff_of_true ⟨_, rfl, Or.inr rfl⟩ (Or.inl (not_lt.mp hlt))
  | error err =>
    simp only [finishedState, verdict, Settles, reduceCtorEq, if_false]
    split_ifs with hlt heq
    · rw [final_elim_iff (fun _ => rfl)]
      simp [hlt, hlt.ne]
    · exact iff_of_true ⟨_, rfl, Or.inr rfl⟩ (Or.inl heq)
    · simp [Verdict.Final, Verdict.comesAgain, hlt, heq]

theorem jobExists_releaseTask (q : Queue D R P) (handle : Option ℕ) (workerId : Uuid) (id : ℕ)
    (state : JobState) (j : ℕ) :
    (q.releaseTask handle workerId id state).store.jobExists j = q.store.jobExists j := by
  cases handle <;> rfl

theorem jobExists_cleanUpJob_true (q : Queue D R P) (id : ℕ) (clock : Clock) :
    (q.cleanUpJob id (some (.bool true)) clock).store.jobExists id = false := by
  simp [cleanUpJob, jobExists, getJob, InMemoryStore.remove, RecordMap.get_remove]

/-! ### One task -/

section Task

variable {q : Queue D R P} {job after : Job D R P} {entry : JobMeta D R P}
  {t : InMemoryStore D R P} {token : JobToken} {returned : Except CaughtError R} {clock : Clock}

theorem Judges.cleanedUp (h : q.Judges job token returned clock t after entry)
    {policy : Option RemoveOnCompletionOrFailure}
    (hv : q.verdict (finishedState returned) after entry clock = .ok (.cleanUp policy))
    (workerId : Uuid) : q.CleanedUp job token workerId returned clock policy := by
  have hresult := h.processJob_eq workerId
  rw [hv] at hresult
  constructor
  · exact (h.ending_eq_ok_iff _).mpr hv
  · exact ⟨_, _, hresult⟩
  · rintro rfl
    rw [hresult]
    refine (jobExists_releaseTask _ _ _ _ _ _).trans ?_
    exact jobExists_cleanUpJob_true (q.taken (job.id.getD 0) t) (job.id.getD 0) clock

theorem Judges.cleanedUp_iff (h : q.Judges job token returned clock t after entry)
    (workerId : Uuid) :
    (q.comesAgain job token returned clock = false → q.CleanedUp job token workerId returned clock
        (retention (finishedState returned) entry.job.opts)) ↔
      ∃ v, q.verdict (finishedState returned) after entry clock = .ok v ∧
        Verdict.Final (finishedState returned) entry.job.opts v := by
  have hending := h.ending_eq_ok_iff
  constructor
  · intro hclean
    cases hagain : q.comesAgain job token returned clock with
    | true =>
      obtain ⟨v, hv, hcomes⟩ := comesAgain_iff.mp hagain
      exact ⟨v, (hending v).mp hv, Or.inl hcomes⟩
    | false => exact ⟨_, (hending _).mp (hclean hagain).called, Or.inr rfl⟩
  · rintro ⟨v, hv, hcomes | rfl⟩ hagain
    · have hback := comesAgain_iff.mpr ⟨v, (hending v).mpr hv, hcomes⟩
      exact absurd (hback.symm.trans hagain) (by decide)
    · exact h.cleanedUp hv workerId

theorem ReadBack.leftFinished_iff {r : Job D R P}
    (hread : q.ReadBack (job.id.getD 0) (finishedState returned) r t after)
    (hmove : q.moveFinished job token returned clock =
      (.ok (finishedState returned, after), { q with store := t })) :
    q.LeftFinished job token returned clock ↔ q.Enters r (finishedState returned) := by
  rw [← hread.state_iff]
  constructor
  · rintro ⟨after', q', hmove', hstate⟩
    rw [hmove] at hmove'
    cases hmove'
    exact hstate
  · exact fun hstate => ⟨after, _, hmove, hstate⟩

/-- For a job that is read back, retention is applied just if the attempts and the policies
settle it. -/
theorem ReadBack.applied_iff_settles {r : Job D R P}
    (hread : q.ReadBack (job.id.getD 0) (finishedState returned) r t after)
    (hmove : q.moveFinished job token returned clock =
      (.ok (finishedState returned, after), { q with store := t })) (workerId : Uuid) :
    q.RetentionApplied job token workerId returned clock ↔
      (q.Enters r (finishedState returned) →
        ∃ entry, q.jobsInProgress.get? (job.id.getD 0) = some entry ∧
          q.Settles returned r.opts entry.job.opts (q.attemptsAfter r) clock) := by
  have hdecide : ∀ entry, q.jobsInProgress.get? (job.id.getD 0) = some entry →
      ((q.comesAgain job token returned clock = false →
        q.CleanedUp job token workerId returned clock
          (retention (finishedState returned) entry.job.opts)) ↔
        q.Settles returned r.opts entry.job.opts (q.attemptsAfter r) clock) := by
    intro entry hent
    have hjudges : q.Judges job token returned clock t after entry := ⟨hmove, hent⟩
    rw [hjudges.cleanedUp_iff, verdict_final_iff, hread.opts, hread.spent]
  unfold RetentionApplied
  rw [hread.leftFinished_iff hmove]
  apply imp_congr_right
  intro _
  constructor
  · intro hdone
    -- an entry is needed in both cases: to put the job back and to clean it up
    obtain ⟨entry, hent⟩ : ∃ entry, q.jobsInProgress.get? (job.id.getD 0) = some entry := by
      cases hagain : q.comesAgain job token returned clock with
      | true => exact exists_entry_of_comesAgain hmove hagain
      | false =>
        obtain ⟨entry, hent, -⟩ := hdone hagain
        exact ⟨entry, hent⟩
    refine ⟨entry, hent, (hdecide entry hent).mp fun hagain => ?_⟩
    obtain ⟨entry', hent', hclean⟩ := hdone hagain
    obtain rfl : entry = entry' := Option.some.inj (hent.symm.trans hent')
    exact hclean
  · rintro ⟨entry, hent, hsettles⟩ hagain
    exact ⟨entry, hent, (hdecide entry hent).mpr hsettles hagain⟩

end Task

/-- The retention policy is applied at the end of a job just if finishing it settles it. -/
theorem retentionApplied_iff (q : Queue D R P) (job : Job D R P) (token : JobToken)
    (workerId : Uuid) (returned : Except CaughtError R) (clock : Clock) :
    q.RetentionApplied job token workerId returned clock ↔ q.SettlesJob job returned clock := by
  cases q.firstHalf job token returned clock with
  | panics hm =>
    refine iff_of_true ?_ fun hok => ?_
    · rintro ⟨after, q', hmove, -⟩
      rw [moveFinished_error hm] at hmove
      cases hmove
    · rw [hm] at hok
      cases hok
  | lost hok hr =>
    refine iff_of_true ?_ fun _ r hfound => ?_
    · rintro ⟨after, q', hmove, -⟩
      rw [moveFinished_lost hok hr] at hmove
      cases hmove
    · rw [hr] at hfound
      cases hfound
  | @readBack r after t hok hr hmove hread =>
    rw [hread.applied_iff_settles hmove]
    constructor
    · intro h _ r' hfound
      obtain rfl : r = r' := Option.some.inj (hr.symm.trans hfound)
      exact h
    · exact fun h => h hok r hr

/-- A finished job about which nothing is done keeps its record against the policy. -/
theorem not_retentionApplied_of_leave {q : Queue D R P} {job : Job D R P} {token : JobToken}
    {returned : Except CaughtError R} {clock : Clock} (hpause : q.isPaused = false)
    (hok : job.getMetrics.isOk = true) (hex : q.store.jobExists (job.id.getD 0) = true)
    (hleave : q.ending job token returned clock = .ok (some .leave)) (workerId : Uuid) :
    ¬ q.RetentionApplied job token workerId returned clock := by
  intro happlied
  have hagain : q.comesAgain job token returned clock = false := by
    rw [comesAgain, hleave]
    rfl
  have hleft : q.LeftFinished job token returned clock := by
    obtain ⟨r, hr⟩ := Option.isSome_iff_exists.mp hex
    obtain ⟨t, after, hmove, hread⟩ := moveFinished_readBack hok hr token returned clock
    exact (hread.leftFinished_iff hmove).mpr (Or.inl hpause)
  obtain ⟨entry, -, hclean⟩ := happlied hleft hagain
  have hcalled := hclean.called
  rw [hleave] at hcalled
  cases hcalled

/-- A job that succeeds on the first of three attempts, and one that fails on the first of two
without a backoff: both policies say that the record is to be deleted, and it stays. -/
theorem earlyEnd_not_retained :
    let early := System.oneRunning { attempts := 3, removeOnComplete := some (.bool true) }
    let noBackoff := System.oneRunning { attempts := 2, removeOnFail := some (.bool true) }
    let job := (early.tasks.head (by decide +kernel)).job
    let job' := (noBackoff.tasks.head (by decide +kernel)).job
    let failure : Except CaughtError Unit := .error (.error "refused" none)
    let out := early.queue.processJob job ⟨0, 0, 0⟩ 0 (.ok ()) ⟨5, 0⟩
    let out' := noBackoff.queue.processJob job' ⟨0, 0, 0⟩ 0 failure ⟨5, 0⟩
    (¬ early.queue.RetentionApplied job ⟨0, 0, 0⟩ 0 (.ok ()) ⟨5, 0⟩ ∧
        out.2.store.jobExists 1 = true) ∧
      ¬ noBackoff.queue.RetentionApplied job' ⟨0, 0, 0⟩ 0 failure ⟨5, 0⟩ ∧
        out'.2.store.jobExists 1 = true := by
  intro early noBackoff job job' failure out out'
  refine ⟨⟨?_, by decide +kernel⟩, ?_, by decide +kernel⟩
  · exact not_retentionApplied_of_leave (by decide +kernel) (by decide +kernel)
      (by decide +kernel) (by decide +kernel) 0
  · exact not_retentionApplied_of_leave (by decide +kernel) (by decide +kernel)
      (by decide +kernel) (by decide +kernel) 0

end Queue

end Kiomq
