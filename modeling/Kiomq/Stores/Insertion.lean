import Kiomq.Stores.InMemory

/-!
# Adding jobs to the in-memory store

`insert` checks the delay, puts the id in one collection, stores the record and
publishes an event. The three effects are separate functions, because other clients
can run between them; `insert` is their sequential composition.
-/

namespace Kiomq

namespace InMemoryStore

variable {D R P : Type}

/-- What `insert` knows about a job once its options have been checked. -/
structure Admission (D R P : Type) where
  job : Job D R P
  delay : ℕ
  expected : Option ℤ

/-- The checks of `insert`: the delay is read as `u64`, so that a negative one counts
as a very long one, and a positive delay has to reach the limit. -/
def checkOptions (job : Job D R P) (opts : JobOptions) (now : Dt) : KioResult (Admission D R P) :=
  match opts.delay.nextOccurranceTimestampMs now with
  | .error e => .error e
  | .ok expected =>
    match opts.delay.asDiffMs now with
    | .error e => .error e
    | .ok ms =>
      match job.addOpts opts with
      | .error e => .error e
      | .ok job =>
        let delay := castUnsigned ms
        if 0 < delay ∧ delay < minDelayMsLimit then
          .error (.delayBelowAllowedLimit minDelayMsLimit delay)
        else .ok { job, delay, expected }

theorem checkOptions_cases {job : Job D R P} {opts : JobOptions} {now : Dt} {a : Admission D R P}
    (h : checkOptions job opts now = .ok a) :
    ∃ ms, opts.delay.nextOccurranceTimestampMs now = .ok a.expected ∧
      opts.delay.asDiffMs now = .ok ms ∧ a.delay = castUnsigned ms ∧
      job.addOpts opts = .ok a.job ∧ ¬ (0 < a.delay ∧ a.delay < minDelayMsLimit) := by
  unfold checkOptions at h
  cases he : opts.delay.nextOccurranceTimestampMs now with
  | error e => simp [he] at h
  | ok expected =>
    cases hd : opts.delay.asDiffMs now with
    | error e => simp [he, hd] at h
    | ok ms =>
      cases hj : job.addOpts opts with
      | error e => simp [he, hd, hj] at h
      | ok job' =>
        simp only [he, hd, hj] at h
        split_ifs at h with hshort
        obtain rfl := Except.ok.inj h
        exact ⟨ms, rfl, rfl, rfl, rfl, hshort⟩

/-- Put the id in its collection. The answer is the state the record gets and the
event that is published. -/
def place (s : InMemoryStore D R P) (a : Admission D R P) (pc id : ℕ) (isPaused : Bool) :
    (JobState × JobState) × InMemoryStore D R P :=
  let event := if isPaused then JobState.paused else JobState.wait
  if 0 < a.delay then
    match a.expected with
    | some activeTime => ((.delayed, .delayed), s.addItem .delayed id (some activeTime) false)
    | none => ((a.job.state, event), s)
  else if 0 < a.job.opts.priority then
    let score := castSigned (calculateNextPriorityScore a.job.opts.priority pc)
    ((.prioritized, .prioritized), s.addItem .prioritized id (some score) true)
  else
    ((a.job.state, event), s.addItem (if isPaused then .paused else .wait) id none true)

def storeRecord (s : InMemoryStore D R P) (id : ℕ) (job : Job D R P) : InMemoryStore D R P :=
  { s with jobs := s.jobs.insertConstant (.job id) job }

def insertedEvent (a : Admission D R P) (id : ℕ) (name : String) (event : JobState) :
    QueueStreamEvent R P :=
  { jobId := id
    event
    name := some name
    delay := if 0 < a.delay then some a.delay else none
    priority := if 0 < a.job.opts.priority ∧ ¬ 0 < a.delay then some a.job.opts.priority else none }

def insert (s : InMemoryStore D R P) (job : Job D R P) (opts : JobOptions) (pc id : ℕ)
    (name : String) (isPaused : Bool) (clock : Clock) :
    KioResult (Job D R P) × InMemoryStore D R P :=
  match checkOptions job opts clock.utc with
  | .error e => (.error e, s)
  | .ok a =>
    let placed := s.place a pc id isPaused
    let job := { a.job with state := placed.1.1, id := some id }
    let s := placed.2.storeRecord id job
    (.ok job, s.publishEvent (insertedEvent a id name placed.1.2))

abbrev NewJob (D : Type) := String × Option JobOptions × D

def NewJob.opts (queueOpts : QueueOpts) (item : NewJob D) : JobOptions :=
  updateJobOpts queueOpts (item.2.1.getD {})

/-- The counters are advanced before the job is checked: a rejected job has used up
its id. -/
def addOne (s : InMemoryStore D R P) (item : NewJob D) (queueOpts : QueueOpts) (isPaused : Bool)
    (clock : Clock) : KioResult (Job D R P) × InMemoryStore D R P :=
  let opts := updateJobOpts queueOpts (item.2.1.getD {})
  let pc := if 0 < opts.priority then s.incr .priorityCounter 1 none else (0, s)
  let id := pc.2.incr .id 1 none
  let queueName := s.keyPrefix ++ ":" ++ s.name
  let job := Job.new item.1 (some item.2.2) opts.id (some queueName) clock.utc
  id.2.insert job opts pc.1 id.1 item.1 isPaused clock

/-- The loop of `add_bulk`; the first rejected job ends it with what was added so far. -/
def addBulk (s : InMemoryStore D R P) (items : List (NewJob D)) (queueOpts : QueueOpts)
    (isPaused : Bool) (clock : Clock) : KioResult (List (Job D R P)) × InMemoryStore D R P :=
  match items with
  | [] => (.ok [], s)
  | item :: rest =>
    match s.addOne item queueOpts isPaused clock with
    | (.error e, s) => (.error e, s)
    | (.ok job, s) =>
      let tail := addBulk s rest queueOpts isPaused clock
      (tail.1.map fun jobs => job :: jobs, tail.2)

theorem addBulk_keeps {motive : InMemoryStore D R P → Prop} {items : List (NewJob D)}
    {queueOpts : QueueOpts} {isPaused : Bool} {clock : Clock}
    (hone : ∀ item ∈ items, ∀ s, motive s → motive (s.addOne item queueOpts isPaused clock).2)
    {s : InMemoryStore D R P} (h : motive s) :
    motive (s.addBulk items queueOpts isPaused clock).2 := by
  induction items generalizing s with
  | nil => exact h
  | cons item rest ih =>
    have hnext := hone item List.mem_cons_self s h
    rw [addBulk]
    cases hres : s.addOne item queueOpts isPaused clock with
    | mk res t =>
      rw [hres] at hnext
      cases res with
      | error e => exact hnext
      | ok job => exact ih (fun i hi => hone i (List.mem_cons_of_mem _ hi)) hnext

/-- The same loop; the created records are dropped. -/
def addBulkOnly (s : InMemoryStore D R P) (items : List (NewJob D)) (queueOpts : QueueOpts)
    (isPaused : Bool) (clock : Clock) : KioResult Unit × InMemoryStore D R P :=
  let out := s.addBulk items queueOpts isPaused clock
  (out.1.map fun _ => (), out.2)

end InMemoryStore

end Kiomq
