import Kiomq.Worker.ProcessJob

/-!
# One queue with its workers and timers

The state is the queue, the collector of timers and the dispatched tasks. Each
action is one of the operations that clients, workers and the timer task perform,
and every order of them is a run. A timer is delivered in two actions, its expiry in
the collector and its reception by the timer task of the queue, in any order.
-/

namespace Kiomq

open Foundations

structure Task (D R P : Type) where
  job : Job D R P
  token : JobToken

def Task.jobId {D R P : Type} (t : Task D R P) : ℕ := t.job.id.getD 0

structure System (D R P : Type) where
  queue : Queue D R P
  collector : Collector
  tasks : List (Task D R P)

inductive Action (D R : Type)
  | addBulk (items : List (InMemoryStore.NewJob D)) (clock : Clock)
  | pauseOrResume
  | getMetrics
  | poll (token : JobToken) (opts : WorkerOpts) (clock : Clock)
  | storeHandle (jobId handle : ℕ)
  | finish (i : ℕ) (returned : Except CaughtError R) (clock : Clock)
  | registerTimer (timer : TimerType)
  | promote (dateTime : Dt) (intervalMs : ℤ) (clock : Clock)
  | expire (i : ℕ)
  | deliver (i : ℕ)

namespace System

variable {D R P : Type}

/-- A queue opened on a fresh store, registered with a fresh collector. -/
def init (keyPrefix : Option String) (name : String) (opts : Option QueueOpts) (id : Uuid)
    (backoff : BackOff) : System D R P :=
  { queue := { Queue.new (.new keyPrefix name) opts id with backoff }
    collector := Collector.new.registerQueue id
    tasks := [] }

/-- The part of `main_loop` that follows a fetched job: count it, enter it among the
jobs in progress and spawn its task. -/
def dispatch (w : System D R P) (job : Job D R P) (token : JobToken) (opts : WorkerOpts) :
    System D R P :=
  match job.id with
  | none => w
  | some id =>
    let q := (w.queue.updateProcessingCount true token.worker id job.state).2
    { w with
      queue := { q with jobsInProgress := q.jobsInProgress.insert id ⟨job, token, none, opts⟩ }
      tasks := w.tasks ++ [⟨job, token⟩] }

def poll (w : System D R P) (token : JobToken) (opts : WorkerOpts) (clock : Clock) :
    System D R P :=
  match w.queue.getNextJob token false opts none clock with
  | (.ok (some job), q) => { w with queue := q }.dispatch job token opts
  | (_, q) => { w with queue := q }

/-- The handle of a spawned task is stored if its entry is still there. -/
def storeHandle (w : System D R P) (jobId handle : ℕ) : System D R P :=
  { w with
    queue := { w.queue with
      jobsInProgress := w.queue.jobsInProgress.modify jobId fun e =>
        { e with handle := some handle } } }

def promote (w : System D R P) (dateTime : Dt) (intervalMs : ℤ) (clock : Clock) : System D R P :=
  let out := w.queue.promoteJobs w.collector dateTime intervalMs clock
  { w with queue := out.2.1, collector := out.2.2 }

def step (w : System D R P) : Action D R → Option (System D R P)
  | .addBulk items clock => some { w with queue := (w.queue.bulkAdd items clock).2 }
  | .pauseOrResume => some { w with queue := w.queue.pauseOrResume }
  | .getMetrics =>
    -- called by the timer task, for each event that is processed, and by clients
    some { w with queue := w.queue.getMetrics.2 }
  | .poll token opts clock => some (w.poll token opts clock)
  | .storeHandle jobId handle => some (w.storeHandle jobId handle)
  | .finish i returned clock =>
    w.tasks[i]?.map fun t =>
      { w with
        queue := (w.queue.processJob t.job t.token t.token.worker returned clock).2
        tasks := w.tasks.eraseIdx i }
  | .registerTimer timer =>
    -- promotions are registered by `promote` only
    match timer.promoted? with
    | some _ => none
    | none => some { w with collector := w.collector.send w.queue.id timer }
  | .promote dateTime intervalMs clock => some (w.promote dateTime intervalMs clock)
  | .expire i => (w.collector.expire i).map fun c => { w with collector := c }
  | .deliver i =>
    match (w.collector.channel w.queue.id)[i]? with
    | some (.promotedDelayed jobId _) =>
      some { w with
        queue := w.queue.processPromoted jobId
        collector := w.collector.takeCommand w.queue.id i }
    | _ => none

end System

end Kiomq
