import Kiomq.Queue.Placement

/-!
# What finishing a job does

`move_job_to_finished_or_failed` goes through the transition that dispatch uses as well. In
a queue whose cached pause flag is set the transition is skipped and reported as done, and
a job leaves the collection of its recorded state, which need not be the active list. In
every other case the outcome of an active job is recorded completely.
-/

namespace Kiomq

open Foundations InMemoryStore

variable {D R P : Type}

def Job.Holds (job : Job D R P) : ProcessedResult R → Prop
  | .success value _ => job.returnedValue = some value
  | .failed details => job.failedReason = some details

namespace InMemoryStore

/-- The job with record `r` is finished: it is not active any more, it is filed under its
outcome, and its record says so, with one attempt more. The counter has to stay in the range of
`i64`, in which the source adds. -/
structure Concluded (t : InMemoryStore D R P) (id : ℕ) (r : Job D R P) (place : Place)
    (result : ProcessedResult R) : Prop where
  left : id ∉ t.filed .active
  filed : id ∈ t.filed place
  record : ∃ r', t.getJob id = some r' ∧ r'.state = place.state ∧
    r'.attemptsMade = r.attemptsMade + 1 ∧ r'.attemptsMade < 2 ^ 63 ∧ r'.Holds result

end InMemoryStore

namespace Queue

theorem state_finishedRecord (r : Job D R P) (ts : ℤ) (next : JobState)
    (processed : ProcessedResult R) (backtrace : Option Trace) :
    (finishedRecord r ts next processed backtrace).state = next := by
  obtain ⟨rest, hfields, hrest⟩ := transitionFields_tail next (some processed) (some ts) backtrace
  rw [finishedRecord, hfields, List.foldl_cons, state_foldl_setField _ rest hrest]
  rfl

theorem holds_finishedRecord (r : Job D R P) (ts : ℤ) (next : JobState)
    (processed : ProcessedResult R) (backtrace : Option Trace) :
    (finishedRecord r ts next processed backtrace).Holds processed := by
  cases processed <;> cases backtrace <;> rfl

theorem attemptsMade_finishedRecord (r : Job D R P) (ts : ℤ) (next : JobState)
    (processed : ProcessedResult R) (backtrace : Option Trace) :
    (finishedRecord r ts next processed backtrace).attemptsMade = r.attemptsMade + 1 :=
  congrArg RecordView.spent (view_finishedRecord r ts next processed backtrace)

theorem mem_filed_finishedStore (s : InMemoryStore D R P) (id : ℕ) (r : Job D R P) (ts : ℤ)
    {place : Place} (hplace : place = .completed ∨ place = .failed)
    (processed : ProcessedResult R) (backtrace : Option Trace) (clock : Clock) :
    id ∈ (finishedStore s id r ts place.state processed backtrace clock).filed place := by
  have hinsert : ∀ m : OrderedMap ℕ ℕ, id ∈ (m.insert (castUnsigned ts) id).values :=
    fun m => (m.mem_values_insert_iff _ _ _).mpr (Or.inl rfl)
  rcases hplace with rfl | rfl
  · exact hinsert _
  · exact hinsert _

theorem state_of_outcome {place : Place} (hplace : place = .completed ∨ place = .failed) :
    place.state = .failed ∨ place.state = .completed := by
  rcases hplace with rfl | rfl
  · exact Or.inr rfl
  · exact Or.inl rfl

/-- A finished job has left the active list just if that is where its recorded state files it. -/
theorem mem_active_finishedStore {s : InMemoryStore D R P} {id : ℕ} (hact : id ∈ s.filed .active)
    (r : Job D R P) (ts : ℤ) {next : JobState} (hnext : next = .failed ∨ next = .completed)
    (processed : ProcessedResult R) (backtrace : Option Trace) (clock : Clock) :
    id ∈ (finishedStore s id r ts next processed backtrace clock).filed .active ↔
      CollectionSuffix.ofJobState r.state ≠ .active := by
  obtain ⟨-, hcount, -, -, -⟩ := relocate_finished s id r.state next hnext (some ts) clock
  have hcopies : (finishedStore s id r ts next processed backtrace clock).activeCount id =
      if CollectionSuffix.ofJobState r.state = .active ∧ id = id then 0 else s.activeCount id :=
    hcount id
  rw [mem_filed_active] at hact ⊢
  rw [hcopies]
  split_ifs with hstate
  · simp [hstate.1]
  · exact ⟨fun _ h => hstate ⟨h, rfl⟩, fun _ => hact⟩

/-- A queue whose cached pause flag is set reports the job as it is. -/
theorem moveJobToFinishedOrFailed_paused {q : Queue D R P} (hpause : q.isPaused = true) (id : ℕ)
    (ts : ℤ) (token : JobToken) (next : JobState) (processed : ProcessedResult R)
    (backtrace : Option Trace) (clock : Clock) :
    q.moveJobToFinishedOrFailed id ts token next processed backtrace clock =
      ((q.store.getJob id).elim (.error .jobNotFound) .ok, q) := by
  simp only [moveJobToFinishedOrFailed, moveJobToState, hpause, if_true]
  cases q.store.getJob id <;> rfl

/-- The outcome of an active job is recorded just if the cached pause flag is off, its recorded
state is that of an active job, and its attempts can be counted on. -/
theorem finish_concluded_iff {q : Queue D R P} {id : ℕ} {r : Job D R P}
    (hr : q.store.getJob id = some r) (hact : id ∈ q.store.filed .active) {place : Place}
    (hplace : place = .completed ∨ place = .failed) (ts : ℤ) (token : JobToken)
    (result : ProcessedResult R) (backtrace : Option Trace) (clock : Clock) :
    (∃ r' q', q.moveJobToFinishedOrFailed id ts token place.state result backtrace clock =
        (.ok r', q') ∧ q'.store.Concluded id r place result) ↔
      q.isPaused = false ∧ CollectionSuffix.ofJobState r.state = .active ∧
        r.attemptsMade < 2 ^ 63 - 1 := by
  have hnext := state_of_outcome hplace
  cases hpause : q.isPaused with
  | true =>
    -- the transition is skipped, so that the job is still active
    constructor
    · rintro ⟨r', q', heq, hdone⟩
      have hsame : q.moveJobToFinishedOrFailed id ts token place.state result backtrace clock =
          (.ok r, q) := by
        rw [moveJobToFinishedOrFailed_paused hpause, hr]
        rfl
      obtain ⟨-, rfl⟩ := Prod.mk.inj (hsame.symm.trans heq)
      exact absurd hact hdone.left
    · rintro ⟨hfalse, -⟩
      exact absurd hfalse (by decide)
  | false =>
    have hmoved := moveJobToFinishedOrFailed_eq hpause hr ts token hnext result backtrace clock
    have hactive := mem_active_finishedStore hact r ts hnext result backtrace clock
    constructor
    · rintro ⟨r', q', heq, hdone⟩
      obtain ⟨-, rfl⟩ := Prod.mk.inj (hmoved.symm.trans heq)
      refine ⟨rfl, ?_, ?_⟩
      · by_contra hstate
        exact hdone.left (hactive.mpr hstate)
      · obtain ⟨r', -, -, hmade, hrange, -⟩ := hdone.record
        omega
    · rintro ⟨-, hstate, hrange⟩
      refine ⟨_, _, hmoved, ?_⟩
      constructor
      · exact fun hmem => hactive.mp hmem hstate
      · exact mem_filed_finishedStore q.store id r ts hplace result backtrace clock
      · have hjob := getJob_finishedStore hr ts hnext result backtrace clock id
        rw [if_pos rfl] at hjob
        have hmade := attemptsMade_finishedRecord r ts place.state result backtrace
        exact ⟨_, hjob, state_finishedRecord r ts place.state result backtrace, hmade, by omega,
          holds_finishedRecord r ts place.state result backtrace⟩

def oneActive : Queue Unit Unit Unit :=
  (((Queue.new (.new none "mail") none 1).bulkAdd [("a", none, ())] ⟨0, 0⟩).2.moveToActive
    ⟨0, 0, 0⟩ {} ⟨0, 0⟩).2

/-- The queue as another process opens it after it was paused. -/
def oneActivePaused : Queue Unit Unit Unit := Queue.new oneActive.pauseOrResume.store none 2

theorem oneActive_concluded :
    ∃ r r' q', oneActive.moveJobToFinishedOrFailed 1 5 ⟨0, 0, 0⟩ .completed (.success () {}) none
        ⟨5, 0⟩ = (.ok r', q') ∧ q'.store.Concluded 1 r .completed (.success () {}) :=
  ⟨_, (finish_concluded_iff (r := (oneActive.store.getJob 1).get (by decide +kernel))
    (Option.some_get _).symm (by decide +kernel) (Or.inl rfl) 5 ⟨0, 0, 0⟩ (.success () {}) none
    ⟨5, 0⟩).mpr ⟨by decide +kernel, by decide +kernel, by decide +kernel⟩⟩

/-- The queue is opened while it is paused: the call succeeds, and the job stays active. -/
theorem pausedFinish_swallowed :
    let out := oneActivePaused.moveJobToFinishedOrFailed 1 5 ⟨0, 0, 0⟩ .completed
      (.success () {}) none ⟨5, 0⟩
    out.1.isOk = true ∧ out.2.store.filed .active = [1] ∧ out.2.store.filed .completed = [] ∧
      ∀ r, ¬ out.2.store.Concluded 1 r .completed (.success () {}) := by
  refine ⟨by decide +kernel, by decide +kernel, by decide +kernel, fun r h => ?_⟩
  exact h.left (by decide +kernel)

end Queue

end Kiomq
