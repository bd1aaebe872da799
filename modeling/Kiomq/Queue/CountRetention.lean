import Kiomq.Foundations.Recency
import Kiomq.Foundations.Runs
import Kiomq.Queue.Finishing

/-!
# Retention by count

A policy to keep `n` records is meant for a history: of the jobs that have finished, the `n`
most recent ones keep their records. `clean_up_job` compares the id of the job that has just
finished with `n` instead. So the first jobs of a queue keep their records for ever, and the
record of every later job is deleted at once.
-/

namespace Kiomq

open Foundations InMemoryStore

variable {D R P : Type}

/-- A job finishes and is cleaned up; the number of records to keep is given plainly, or as
options without an age. -/
structure FinishAction (R : Type) where
  id : ℕ
  ts : ℤ
  token : JobToken
  state : JobState
  finishes : state = .failed ∨ state = .completed
  processed : ProcessedResult R
  backtrace : Option Trace
  clock : Clock
  plain : Bool

def FinishAction.policy (a : FinishAction R) (n : ℕ) : RemoveOnCompletionOrFailure :=
  if a.plain then .int n else .opts ⟨none, some n⟩

/-- A queue with the jobs that have finished, the most recent one first. -/
structure RetentionRun (D R P : Type) where
  queue : Queue D R P
  finished : List ℕ

namespace RetentionRun

def start (q : Queue D R P) : RetentionRun D R P := ⟨q, []⟩

/-- A job without a record does not finish. -/
def step (n : ℕ) (w : RetentionRun D R P) (a : FinishAction R) : Option (RetentionRun D R P) :=
  match w.queue.moveJobToFinishedOrFailed a.id a.ts a.token a.state a.processed a.backtrace
    a.clock with
  | (.error _, _) => none
  | (.ok _, q) =>
    some ⟨q.cleanUpJob a.id (some (a.policy n)) a.clock, touch a.id w.finished⟩

/-- Of the finished jobs just the `n` most recent ones have a record. -/
def KeepsNewest (n : ℕ) (w : RetentionRun D R P) : Prop :=
  ∀ id ∈ w.finished, w.queue.store.jobExists id = true ↔ id ∈ w.finished.take n

instance (n : ℕ) (w : RetentionRun D R P) : Decidable (KeepsNewest n w) :=
  inferInstanceAs (Decidable (∀ id ∈ w.finished, _))

/-- The id of a job that finishes is not above `n`, and fewer than `n` other jobs have
finished before it. -/
def WithinCount (n : ℕ) (w : RetentionRun D R P) (a : FinishAction R) : Prop :=
  w.queue.store.jobExists a.id = true →
    Queue.exceedsCount a.id n = false ∧ (w.finished.erase a.id).length < n

instance (n : ℕ) (w : RetentionRun D R P) (a : FinishAction R) : Decidable (WithinCount n w a) :=
  inferInstanceAs (Decidable (_ → _))

end RetentionRun

namespace Queue

theorem cleanUpJob_count (q : Queue D R P) (a : FinishAction R) (n : ℕ) :
    q.cleanUpJob a.id (some (a.policy n)) a.clock =
      if exceedsCount a.id n then { q with store := q.store.remove (.job a.id) } else q := by
  unfold FinishAction.policy
  cases a.plain <;> rfl

theorem jobExists_cleanUpJob_count (q : Queue D R P) (a : FinishAction R) (n j : ℕ) :
    (q.cleanUpJob a.id (some (a.policy n)) a.clock).store.jobExists j =
      (q.store.jobExists j && !(exceedsCount a.id n && decide (j = a.id))) := by
  rw [cleanUpJob_count]
  cases exceedsCount a.id n with
  | true =>
    by_cases hj : j = a.id <;>
      simp [hj, jobExists, getJob, InMemoryStore.remove, RecordMap.get_remove]
  | false => simp

theorem moveJobToFinishedOrFailed_records (q : Queue D R P) (a : FinishAction R) :
    (q.store.jobExists a.id = false ∧ ∃ e q', q.moveJobToFinishedOrFailed a.id a.ts a.token
        a.state a.processed a.backtrace a.clock = (.error e, q')) ∨
      q.store.jobExists a.id = true ∧ ∃ r q', q.moveJobToFinishedOrFailed a.id a.ts a.token
        a.state a.processed a.backtrace a.clock = (.ok r, q') ∧
          ∀ j, q'.store.jobExists j = q.store.jobExists j := by
  cases hr : q.store.getJob a.id with
  | none =>
    refine Or.inl ⟨by simp [jobExists, hr], .jobNotFound, q, ?_⟩
    cases hpause : q.isPaused with
    | true =>
      rw [moveJobToFinishedOrFailed_paused hpause, hr]
      rfl
    | false => exact moveJobToFinishedOrFailed_missing hpause hr _ _ _ _ _ _
  | some r =>
    refine Or.inr ⟨by simp [jobExists, hr], ?_⟩
    cases hpause : q.isPaused with
    | true =>
      refine ⟨r, q, ?_, fun _ => rfl⟩
      rw [moveJobToFinishedOrFailed_paused hpause, hr]
      rfl
    | false =>
      refine ⟨_, _, moveJobToFinishedOrFailed_eq hpause hr a.ts a.token a.finishes a.processed
        a.backtrace a.clock, fun j => ?_⟩
      unfold jobExists
      rw [getJob_finishedStore hr a.ts a.finishes]
      split_ifs with hj
      · rw [hj, hr]
        rfl
      · rfl

end Queue

namespace RetentionRun

variable {n : ℕ} {w t : RetentionRun D R P} {a : FinishAction R}

theorem exists_step (n : ℕ) (h : w.queue.store.jobExists a.id = true) :
    ∃ t, w.step n a = some t := by
  unfold step
  rcases w.queue.moveJobToFinishedOrFailed_records a with ⟨hmissing, -⟩ | ⟨-, r, q, heq, -⟩
  · rw [hmissing] at h
    cases h
  · rw [heq]
    exact ⟨_, rfl⟩

/-- What a step does: the job is the most recent one, and its record is deleted just if its
id exceeds the count. -/
theorem step_spec (h : w.step n a = some t) :
    w.queue.store.jobExists a.id = true ∧ t.finished = touch a.id w.finished ∧
      ∀ j, t.queue.store.jobExists j =
        (w.queue.store.jobExists j && !(Queue.exceedsCount a.id n && decide (j = a.id))) := by
  unfold step at h
  rcases w.queue.moveJobToFinishedOrFailed_records a with ⟨-, e, q, heq⟩ | ⟨hex, r, q, heq, hsame⟩
  · rw [heq] at h
    cases h
  · rw [heq] at h
    obtain rfl := Option.some.inj h
    refine ⟨hex, rfl, fun j => ?_⟩
    rw [q.jobExists_cleanUpJob_count a n j, hsame]

/-- Every finished job has its record. -/
structure AllKept (w : RetentionRun D R P) : Prop where
  nodup : w.finished.Nodup
  kept : ∀ id ∈ w.finished, w.queue.store.jobExists id = true

theorem allKept_step (hw : w.AllKept) (h : w.step n a = some t)
    (hkept : t.queue.store.jobExists a.id = true) : t.AllKept := by
  obtain ⟨-, hfinished, hrecords⟩ := step_spec h
  constructor
  · rw [hfinished]
    exact nodup_touch hw.nodup a.id
  · intro id hid
    rw [hfinished, mem_touch] at hid
    by_cases hself : id = a.id
    · rw [hself]
      exact hkept
    · rw [hrecords, hw.kept id (hid.resolve_left hself)]
      simp [hself]

/-- While at most `n` jobs have finished and all records are kept, these are the records of
the `n` most recent ones. -/
theorem AllKept.keepsNewest (hw : w.AllKept) (hlen : w.finished.length ≤ n) :
    w.KeepsNewest n := by
  intro id hid
  rw [List.take_of_length_le hlen]
  exact iff_of_true (hw.kept id hid) hid

/-- A job whose id exceeds the count is the most recent one and has no record. -/
theorem not_keepsNewest_of_exceeds (hn : 0 < n) (h : w.step n a = some t)
    (hexceeds : Queue.exceedsCount a.id n = true) : ¬ t.KeepsNewest n := by
  obtain ⟨-, hfinished, hrecords⟩ := step_spec h
  intro hnewest
  have hmem : a.id ∈ t.finished := by
    rw [hfinished, mem_touch]
    exact Or.inl rfl
  have hgone : t.queue.store.jobExists a.id = false := by
    rw [hrecords]
    simp [hexceeds]
  have hrecent : a.id ∈ t.finished.take n := by
    rw [hfinished]
    exact mem_take_touch hn a.id w.finished
  rw [← hnewest a.id hmem, hgone] at hrecent
  cases hrecent

theorem AllKept.not_keepsNewest (hw : w.AllKept) (hlen : n < w.finished.length) :
    ¬ w.KeepsNewest n := by
  intro hnewest
  obtain ⟨id, hid, hnot⟩ := exists_not_mem_take hw.nodup hlen
  exact hnot ((hnewest id hid).mp (hw.kept id hid))

/-- Along every run just the `n` most recently finished jobs have a record just if no job with
an id above `n` finishes and at most `n` jobs do. -/
theorem keepsNewest_iff_withinCount (hn : 0 < n) (q : Queue D R P) (as : List (FinishAction R)) :
    Always (step n) (KeepsNewest n) (start q) as ↔
      Guarded (step n) (WithinCount n) (start q) as := by
  apply always_iff_guarded_into
    (I := fun w => w.AllKept ∧ w.finished.length ≤ n) (J := AllKept)
  · intro w a t hw h hnewest
    obtain ⟨-, hfinished, -⟩ := step_spec h
    have hmem : a.id ∈ t.finished := by
      rw [hfinished, mem_touch]
      exact Or.inl rfl
    apply allKept_step hw h
    rw [hnewest a.id hmem, hfinished]
    exact mem_take_touch hn a.id w.finished
  · rintro w a t ⟨hw, -⟩ hguard h
    obtain ⟨hex, hfinished, hrecords⟩ := step_spec h
    obtain ⟨hexceeds, hothers⟩ := hguard hex
    constructor
    · apply allKept_step hw h
      rw [hrecords, hex, hexceeds]
      rfl
    · rw [hfinished, length_touch]
      exact hothers
  · exact fun w hw => hw.1.keepsNewest hw.2
  · intro w a hw hnot
    unfold WithinCount at hnot
    push Not at hnot
    obtain ⟨hex, hmany⟩ := hnot
    obtain ⟨t, h⟩ := exists_step n hex
    refine ⟨t, h, ?_⟩
    obtain ⟨-, hfinished, hrecords⟩ := step_spec h
    cases hexceeds : Queue.exceedsCount a.id n with
    | true => exact not_keepsNewest_of_exceeds hn h hexceeds
    | false =>
      have hkept : t.AllKept := by
        apply allKept_step hw h
        rw [hrecords, hex, hexceeds]
        rfl
      apply hkept.not_keepsNewest
      rw [hfinished, length_touch]
      exact Nat.lt_succ_of_le (hmany hexceeds)
  · exact ⟨⟨List.nodup_nil, by simp [start]⟩, Nat.zero_le n⟩
  · exact ⟨List.nodup_nil, by simp [start]⟩

def threeJobs : Queue Unit Unit Unit :=
  ((Queue.new (.new none "mail") none 1).bulkAdd
    [("a", none, ()), ("b", none, ()), ("c", none, ())] ⟨0, 0⟩).2

def succeed (id : ℕ) (ts : ℤ) : FinishAction Unit :=
  ⟨id, ts, ⟨0, 0, 0⟩, .completed, Or.inr rfl, .success () {}, none, ⟨ts, 0⟩, true⟩

theorem threeJobs_keepNewest :
    Guarded (step 3) (WithinCount 3) (start threeJobs) [succeed 2 5, succeed 1 6, succeed 3 7] ∧
      Always (step 3) (KeepsNewest 3) (start threeJobs)
        [succeed 2 5, succeed 1 6, succeed 3 7] := by
  have hguarded : Guarded (step 3) (WithinCount 3) (start threeJobs)
      [succeed 2 5, succeed 1 6, succeed 3 7] := by decide +kernel
  exact ⟨hguarded, (keepsNewest_iff_withinCount (by decide) threeJobs _).mpr hguarded⟩

/-- With one record to keep, the record of the second job is deleted when it finishes, and
that of the first one stays. -/
theorem secondJob_not_kept :
    ¬ Always (step 1) (KeepsNewest 1) (start threeJobs) [succeed 1 5, succeed 2 6] ∧
      (run (step 1) (start threeJobs) [succeed 1 5, succeed 2 6]).map (fun w =>
        (w.finished, w.queue.store.jobExists 1, w.queue.store.jobExists 2)) =
          some ([2, 1], true, false) := by
  constructor
  · apply not_always_of_run fun w => decide ¬ w.KeepsNewest 1
    · exact fun w hbad => of_decide_eq_true hbad
    · decide +kernel
  · decide +kernel

end RetentionRun

end Kiomq
