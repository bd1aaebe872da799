import Kiomq.Jobs.Job

/-!
# The snapshot of queue counts

`QueueMetrics` is the record that a queue caches and workers consult. `update`
refreshes the cached copy from a fresh snapshot field by field, as the source does;
it does not copy the pause flag.
-/

namespace Kiomq

structure QueueMetrics where
  lastId : ℕ := 0
  processing : ℕ := 0
  prioritized : ℕ := 0
  active : ℕ := 0
  stalled : ℕ := 0
  delayed : ℕ := 0
  completed : ℕ := 0
  failed : ℕ := 0
  paused : ℕ := 0
  waiting : ℕ := 0
  isPaused : Bool := false
  eventMode : QueueEventMode := .stream
  deriving DecidableEq, Repr

namespace QueueMetrics

def update (self other : QueueMetrics) : QueueMetrics :=
  { self with
    paused := other.paused
    completed := other.completed
    stalled := other.stalled
    active := other.active
    lastId := other.lastId
    delayed := other.delayed
    failed := other.failed
    waiting := other.waiting
    processing := other.processing
    prioritized := other.prioritized
    eventMode := other.eventMode }

def hasDelayed (m : QueueMetrics) : Bool := decide (0 < m.delayed)

def queueHasWork (m : QueueMetrics) : Bool :=
  decide (0 < m.waiting) || decide (0 < m.delayed) || decide (0 < m.stalled) ||
    decide (0 < m.prioritized)

def queueIsPaused (m : QueueMetrics) : Bool := m.isPaused

def workersIdle (m : QueueMetrics) : Bool := decide (m.processing = 0)

def hasActiveJobs (m : QueueMetrics) : Bool := decide (0 < m.active)

def isIdle (m : QueueMetrics) : Bool := !m.queueHasWork && !m.hasActiveJobs && m.workersIdle

def allJobsCompleted (m : QueueMetrics) : Bool :=
  decide (0 < m.lastId) && decide (m.completed = m.lastId) && decide (m.active = 0) && m.isIdle

end QueueMetrics

/-- The two cells that `pause_or_resume_workers` may change. -/
structure WorkerSignal where
  pauseWorkers : Bool
  isInitial : Bool
  deriving DecidableEq, Repr

/-- Waking the parked workers is not part of these cells; only the flag is. -/
def resumeHelper (metrics : QueueMetrics) (pauseWorkers : Bool) : Bool :=
  if metrics.queueHasWork && pauseWorkers then false else pauseWorkers

def pauseOrResumeWorkers (metrics : QueueMetrics) (signal : WorkerSignal) : WorkerSignal :=
  if signal.isInitial then { signal with isInitial := false }
  else if metrics.isIdle then { signal with pauseWorkers := true }
  else { signal with pauseWorkers := resumeHelper metrics signal.pauseWorkers }

end Kiomq
