import Kiomq.Queue.Completion
import Kiomq.Stores.Membership

/-!
# A batch that fails

`add_bulk` takes the ids and inserts the jobs one by one, and a job with too short a delay ends
the loop with an error. The jobs before it stay where they were put, and its own id is used up.
So a call that returns an error never leaves the store as it was.
-/

namespace Kiomq

open Foundations

variable {D R P : Type}

namespace InMemoryStore

/-- An insertion refuses the job: its delay can be computed, and it is positive and below the
limit. -/
def NewJob.refused (queueOpts : QueueOpts) (now : Dt) (item : NewJob D) : Bool :=
  let delay := (item.opts queueOpts).delay
  match delay.nextOccurranceTimestampMs now, delay.asDiffMs now with
  | .ok _, .ok ms => decide (0 < castUnsigned ms ∧ castUnsigned ms < minDelayMsLimit)
  | _, _ => false

def ReturnsErr {α : Type*} (x : KioResult α) : Prop :=
  ∃ e, x = .error e ∧ ∀ message, e ≠ .panicked message

/-- The jobs to be fetched, the records and the counters are as they were. -/
structure SameJobs (s t : InMemoryStore D R P) : Prop where
  waiting : t.waiting = s.waiting
  paused : t.paused = s.paused
  prioritized : t.prioritized = s.prioritized
  delayed : t.delayed = s.delayed
  jobs : t.jobs = s.jobs
  idCounter : t.idCounter = s.idCounter
  priorityCounter : t.priorityCounter = s.priorityCounter

/-- A call that returns an error has done nothing. -/
def AllOrNothing {α : Type*} (s : InMemoryStore D R P)
    (out : KioResult α × InMemoryStore D R P) : Prop :=
  ReturnsErr out.1 → SameJobs s out.2

/-- A job is refused after jobs that are all accepted. A job that is neither panics, and what
comes after it is not looked at. -/
def refusalComesUp (queueOpts : QueueOpts) (now : Dt) : List (NewJob D) → Bool
  | [] => false
  | item :: items =>
    item.refused queueOpts now ||
      (item.accepted queueOpts now && refusalComesUp queueOpts now items)

theorem not_returnsErr_ok {α : Type*} (a : α) : ¬ ReturnsErr (.ok a : KioResult α) := by
  rintro ⟨e, h, -⟩
  cases h

theorem returnsErr_error_iff {α : Type*} (e : KioError) :
    ReturnsErr (.error e : KioResult α) ↔ ∀ message, e ≠ .panicked message := by
  constructor
  · rintro ⟨e', h, hpanic⟩
    cases h
    exact hpanic
  · exact fun hpanic => ⟨e, rfl, hpanic⟩

theorem returnsErr_map_iff {α β : Type*} (x : KioResult α) (f : α → β) :
    ReturnsErr (x.map f) ↔ ReturnsErr x := by
  cases x with
  | ok a => exact iff_of_false (not_returnsErr_ok (f a)) (not_returnsErr_ok a)
  | error e => exact (returnsErr_error_iff e).trans (returnsErr_error_iff e).symm

theorem panicked_of_nextOccurrance {delay : JobDelay} {now : Dt} {e : KioError}
    (h : delay.nextOccurranceTimestampMs now = .error e) : ∃ message, e = .panicked message := by
  cases delay with
  | timeMilis ms =>
    simp only [JobDelay.nextOccurranceTimestampMs] at h
    split_ifs at h with hms
    unfold Dt.addMillis at h
    split_ifs at h
    · cases h
    · cases h
      exact ⟨_, rfl⟩
  | fromCron cron => cases h

theorem panicked_of_asDiffMs {delay : JobDelay} {now : Dt} {e : KioError}
    (h : delay.asDiffMs now = .error e) : ∃ message, e = .panicked message := by
  cases delay with
  | timeMilis ms => cases h
  | fromCron cron =>
    unfold JobDelay.asDiffMs at h
    cases hnext : cron.findNextOccurrence now with
    | some next => simp [hnext] at h
    | none =>
      simp only [hnext] at h
      cases h
      exact ⟨_, rfl⟩

theorem returnsErr_addOne_iff (s : InMemoryStore D R P) (item : NewJob D) (queueOpts : QueueOpts)
    (isPaused : Bool) (clock : Clock) :
    ReturnsErr (s.addOne item queueOpts isPaused clock).1 ↔
      item.refused queueOpts clock.utc = true := by
  obtain ⟨pc, counter, heq⟩ := s.addOne_eq item queueOpts isPaused clock
  rw [heq]
  unfold InMemoryStore.insert checkOptions NewJob.refused NewJob.opts
  dsimp only
  cases hnext : (updateJobOpts queueOpts (item.2.1.getD {})).delay.nextOccurranceTimestampMs
      clock.utc with
  | error e =>
    obtain ⟨message, rfl⟩ := panicked_of_nextOccurrance hnext
    refine iff_of_false (fun h => ?_) Bool.false_ne_true
    exact (returnsErr_error_iff _).mp h message rfl
  | ok expected =>
    cases hd : (updateJobOpts queueOpts (item.2.1.getD {})).delay.asDiffMs clock.utc with
    | error e =>
      obtain ⟨message, rfl⟩ := panicked_of_asDiffMs hd
      refine iff_of_false (fun h => ?_) Bool.false_ne_true
      exact (returnsErr_error_iff _).mp h message rfl
    | ok ms =>
      simp only [Job.addOpts, Job.new, hd, Except.map]
      split_ifs with hlow
      · refine iff_of_true ((returnsErr_error_iff _).mpr fun message h => ?_) (decide_eq_true hlow)
        cases h
      · exact iff_of_false (not_returnsErr_ok _) (by simp [hlow])

theorem returnsErr_addBulk_iff (s : InMemoryStore D R P) (items : List (NewJob D))
    (queueOpts : QueueOpts) (isPaused : Bool) (clock : Clock) :
    ReturnsErr (s.addBulk items queueOpts isPaused clock).1 ↔
      refusalComesUp queueOpts clock.utc items = true := by
  induction items generalizing s with
  | nil => exact iff_of_false (not_returnsErr_ok _) Bool.false_ne_true
  | cons item items ih =>
    have hok := s.isOk_addOne item queueOpts isPaused clock
    have herr := s.returnsErr_addOne_iff item queueOpts isPaused clock
    rw [refusalComesUp, addBulk]
    cases hadd : s.addOne item queueOpts isPaused clock with
    | mk result t =>
      rw [hadd] at hok herr
      cases result with
      | error e =>
        have hnot : item.accepted queueOpts clock.utc = false := hok.symm
        rw [hnot, Bool.false_and, Bool.or_false, ← herr]
        exact (returnsErr_error_iff e).trans (returnsErr_error_iff e).symm
      | ok job =>
        have haccepted : item.accepted queueOpts clock.utc = true := hok.symm
        have hnot : item.refused queueOpts clock.utc = false := by
          rw [← Bool.not_eq_true, ← herr]
          exact not_returnsErr_ok job
        rw [hnot, haccepted, Bool.false_or, Bool.true_and, ← ih t]
        exact returnsErr_map_iff _ _

/-- Every job that is looked at uses up an id. -/
theorem idCounter_lt_addBulk (s : InMemoryStore D R P) {items : List (NewJob D)} (h : items ≠ [])
    (queueOpts : QueueOpts) (isPaused : Bool) (clock : Clock) :
    s.idCounter < (s.addBulk items queueOpts isPaused clock).2.idCounter := by
  induction items generalizing s with
  | nil => exact absurd rfl h
  | cons item items ih =>
    have hnext := s.idCounter_addOne item queueOpts isPaused clock
    rw [addBulk]
    cases hadd : s.addOne item queueOpts isPaused clock with
    | mk result t =>
      rw [hadd] at hnext
      have hlt : s.idCounter < t.idCounter := hnext.ge
      cases result with
      | error e => exact hlt
      | ok job =>
        by_cases hnil : items = []
        · subst hnil
          exact hlt
        · exact hlt.trans (ih t hnil)

theorem not_sameJobs_of_returnsErr (s : InMemoryStore D R P) {items : List (NewJob D)}
    {queueOpts : QueueOpts} {isPaused : Bool} {clock : Clock}
    (h : ReturnsErr (s.addBulk items queueOpts isPaused clock).1) :
    ¬ SameJobs s (s.addBulk items queueOpts isPaused clock).2 := by
  intro hsame
  have hne : items ≠ [] := by
    rintro rfl
    exact not_returnsErr_ok _ h
  exact absurd hsame.idCounter (s.idCounter_lt_addBulk hne queueOpts isPaused clock).ne'

/-- Both calls are all or nothing just if no refusal comes up. -/
theorem addBulk_allOrNothing_iff (s : InMemoryStore D R P) (items : List (NewJob D))
    (queueOpts : QueueOpts) (isPaused : Bool) (clock : Clock) :
    (AllOrNothing s (s.addBulk items queueOpts isPaused clock) ∧
        AllOrNothing s (s.addBulkOnly items queueOpts isPaused clock)) ↔
      refusalComesUp queueOpts clock.utc items = false := by
  have honly : AllOrNothing s (s.addBulkOnly items queueOpts isPaused clock) ↔
      AllOrNothing s (s.addBulk items queueOpts isPaused clock) := by
    unfold AllOrNothing addBulkOnly
    rw [returnsErr_map_iff]
  rw [honly, and_self, ← Bool.not_eq_true, ← s.returnsErr_addBulk_iff items queueOpts isPaused]
  constructor
  · exact fun hall herr => s.not_sameJobs_of_returnsErr herr (hall herr)
  · exact fun hnot herr => absurd herr hnot

/-- A batch of one job that waits and one whose delay is too short. The call fails, and the
first job has been added. -/
def halfBatch : List (NewJob Unit) :=
  [("first", none, ()), ("second", some { delay := .timeMilis 10 }, ())]

theorem halfBatch_not_undone :
    let out := mail.addBulk halfBatch {} false ⟨0, 0⟩
    ReturnsErr out.1 ∧ out.2.waiting.values = [1] ∧ out.2.jobExists 1 = true ∧
      out.2.idCounter = 2 ∧ ¬ AllOrNothing mail out := by
  have herr : ReturnsErr (mail.addBulk halfBatch {} false ⟨0, 0⟩).1 :=
    (returnsErr_addBulk_iff _ _ _ _ _).mpr (by decide +kernel)
  refine ⟨herr, by decide +kernel, by decide +kernel, by decide +kernel, fun hall => ?_⟩
  exact not_sameJobs_of_returnsErr _ herr (hall herr)

end InMemoryStore

end Kiomq
