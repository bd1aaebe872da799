import Kiomq.Stores.TimedMap
import Kiomq.Stores.ConcurrentDeque
import Kiomq.Queue.Metrics

/-!
# The in-memory store

The state of one `InMemoryStore` together with the cells that a queue installs in
it when it is opened: the cached metrics, the pause signal of the workers and the
emitter, of which the model keeps the list of published events. The methods that
always return `Ok` are total functions on this state; a method that reads and
writes returns its answer together with the state it leaves behind.

Job ids and the counters are naturals: a run that exhausts 64 bits is not modelled.
-/

namespace Kiomq

open Foundations

inductive Lock
  | token (token : JobToken)
  | stallCheck
  deriving DecidableEq, Repr

/-- The hash fields that the counters of a store are addressed by. The in-memory store
accepts a field in camel case and in snake case. -/
inductive HashField
  | attemptsMade
  | stalledCounter
  | processing
  deriving DecidableEq, Repr

structure InMemoryStore (D R P : Type) where
  name : String
  keyPrefix : String
  processing : ℕ
  isPaused : Bool
  jobs : RecordMap D R P
  locks : TimedMap CollectionSuffix Lock
  idCounter : ℕ
  priorityCounter : ℕ
  completed : OrderedMap ℕ ℕ
  prioritized : OrderedMap ℕ ℕ
  delayed : OrderedMap ℕ ℕ
  failed : OrderedMap ℕ ℕ
  stalled : OrderedMap ℕ Unit
  active : ConcurrentDeque ℕ
  waiting : ConcurrentDeque ℕ
  paused : ConcurrentDeque ℕ
  eventMode : QueueEventMode
  storedMetrics : QueueMetrics
  signal : WorkerSignal
  events : List (QueueStreamEvent R P)

/-- `(priority << 32) + (prio_counter & 0xffff_ffff_ffff)` on `u64`. -/
def calculateNextPriorityScore (priority prioCounter : ℕ) : ℕ :=
  (priority * 2 ^ 32 % 2 ^ 64 + prioCounter % 2 ^ 48) % 2 ^ 64

namespace InMemoryStore

variable {D R P : Type}

/-- A fresh store. `keyPrefix` defaults to `kio`; only publish-subscribe is supported. -/
def new (keyPrefix : Option String) (name : String) : InMemoryStore D R P :=
  { name, keyPrefix := keyPrefix.getD "kio", processing := 0, isPaused := false, jobs := .new
    locks := .new, idCounter := 0, priorityCounter := 0, completed := .empty
    prioritized := .empty, delayed := .empty, failed := .empty, stalled := .empty
    active := .new, waiting := .new, paused := .new, eventMode := .pubSub
    storedMetrics := {}, signal := ⟨false, false⟩, events := [] }

/-! ### Reading -/

def getMetrics (s : InMemoryStore D R P) : QueueMetrics :=
  { lastId := s.idCounter
    processing := s.processing
    active := s.active.len
    stalled := s.stalled.size
    completed := s.completed.size
    delayed := s.delayed.size
    prioritized := s.prioritized.size
    paused := s.paused.len
    failed := s.failed.size
    waiting := s.waiting.len
    isPaused := s.isPaused
    eventMode := s.eventMode }

def getJob (s : InMemoryStore D R P) (id : ℕ) : Option (Job D R P) := s.jobs.get (.job id)

def getState (s : InMemoryStore D R P) (id : ℕ) : Option JobState :=
  (s.getJob id).map Job.state

def getToken (s : InMemoryStore D R P) (id now : ℕ) : Option JobToken × InMemoryStore D R P :=
  let found := s.locks.get (.lock id) now
  (found.1.bind fun
    | .token token => some token
    | .stallCheck => none,
    { s with locks := found.2 })

def getCounter (s : InMemoryStore D R P) (key : CollectionSuffix) (hashKey : Option HashField) :
    Option ℕ :=
  match key with
  | .id => some s.idCounter
  | .priorityCounter => some s.priorityCounter
  | .metaKey => some s.processing
  | .job id =>
    hashKey.bind fun field => (s.getJob id).bind fun job =>
      match field with
      | .stalledCounter => some job.stalledCounter
      | .attemptsMade => some job.attemptsMade
      | .processing => none
  | _ => none

/-- Membership in a collection; only a look at the locks may evict an entry. -/
def existsIn (s : InMemoryStore D R P) (col : CollectionSuffix) (item now : ℕ) :
    Bool × InMemoryStore D R P :=
  match col with
  | .active => (s.active.containsValue item, s)
  | .wait => (s.waiting.containsValue item, s)
  | .paused => (s.paused.containsValue item, s)
  | .completed => (s.completed.entries.any fun e => e.2 = item, s)
  | .failed => (s.failed.entries.any fun e => e.2 = item, s)
  | .prioritized => (s.prioritized.entries.any fun e => e.2 = item, s)
  | .delayed => (s.delayed.entries.any fun e => e.2 = item, s)
  | .stalled => (s.stalled.containsKey item, s)
  | .job id => ((s.getJob id).isSome, s)
  | .lock id =>
    let found := s.locks.containsKey (.lock id) now
    (found.1, { s with locks := found.2 })
  | .stalledCheck =>
    let found := s.locks.containsKey .stalledCheck now
    (found.1, { s with locks := found.2 })
  | _ => (false, s)

def jobExists (s : InMemoryStore D R P) (id : ℕ) : Bool := (s.getJob id).isSome

/-! ### Writing -/

/-- Add to a list at one of its ends, or to a scored collection under its score. -/
def addItem (s : InMemoryStore D R P) (col : CollectionSuffix) (item : ℕ) (score : Option ℤ)
    (append : Bool) : InMemoryStore D R P :=
  match col with
  | .active =>
    { s with active := if append then s.active.pushFront item else s.active.pushBack item }
  | .wait =>
    { s with waiting := if append then s.waiting.pushFront item else s.waiting.pushBack item }
  | .paused =>
    { s with paused := if append then s.paused.pushFront item else s.paused.pushBack item }
  | .completed =>
    { s with completed := score.elim s.completed fun x => s.completed.insert (castUnsigned x) item }
  | .failed =>
    { s with failed := score.elim s.failed fun x => s.failed.insert (castUnsigned x) item }
  | .prioritized =>
    { s with
      prioritized := score.elim s.prioritized fun x => s.prioritized.insert (castUnsigned x) item }
  | .delayed =>
    { s with delayed := score.elim s.delayed fun x => s.delayed.insert (castUnsigned x) item }
  | .stalled => { s with stalled := s.stalled.insert item () }
  | _ => s

/-- Removal from a scored collection: an entry whose *score* equals the item is taken
first, and only without such an entry the values are searched. -/
def removeScored (m : OrderedMap ℕ ℕ) (item : ℕ) : OrderedMap ℕ ℕ :=
  if m.containsKey item then m.remove item else m.filter fun e => e.2 ≠ item

def removeItem (s : InMemoryStore D R P) (col : CollectionSuffix) (item : ℕ) :
    InMemoryStore D R P :=
  match col with
  | .active => { s with active := s.active.filter fun e => e.2 ≠ item }
  | .wait => { s with waiting := s.waiting.filter fun e => e.2 ≠ item }
  | .paused => { s with paused := s.paused.filter fun e => e.2 ≠ item }
  | .completed => { s with completed := removeScored s.completed item }
  | .failed => { s with failed := removeScored s.failed item }
  | .prioritized => { s with prioritized := removeScored s.prioritized item }
  | .delayed => { s with delayed := removeScored s.delayed item }
  | .stalled => { s with stalled := s.stalled.remove item }
  | .job id => { s with jobs := s.jobs.remove (.job id) }
  | .lock id => { s with locks := s.locks.remove (.lock id) }
  | _ => s

def remove (s : InMemoryStore D R P) (key : CollectionSuffix) : InMemoryStore D R P :=
  match key with
  | .active => { s with active := s.active.clear }
  | .completed => { s with active := s.active.clear }
  | .delayed => { s with delayed := .empty }
  | .stalled => { s with stalled := .empty }
  | .prioritized => { s with prioritized := .empty }
  | .wait => { s with waiting := s.waiting.clear }
  | .paused => { s with paused := s.paused.clear }
  | .failed => { s with failed := .empty }
  | .job id => { s with jobs := s.jobs.remove (.job id) }
  | .lock id => { s with locks := s.locks.remove (.lock id) }
  | .stalledCheck => { s with locks := s.locks.remove .stalledCheck }
  | _ => s

/-- Take the entry with the least or the greatest score, as `(id, score)`. -/
def popScored (m : OrderedMap ℕ ℕ) (min : Bool) : List (ℕ × ℕ) × OrderedMap ℕ ℕ :=
  match if min then m.front? else m.back? with
  | some e => ([(e.2, e.1)], m.remove e.1)
  | none => ([], m)

def popSet (s : InMemoryStore D R P) (col : CollectionSuffix) (min : Bool) :
    List (ℕ × ℕ) × InMemoryStore D R P :=
  match col with
  | .completed => let out := popScored s.completed min; (out.1, { s with completed := out.2 })
  | .delayed => let out := popScored s.delayed min; (out.1, { s with delayed := out.2 })
  | .failed => let out := popScored s.failed min; (out.1, { s with failed := out.2 })
  | .prioritized => let out := popScored s.prioritized min; (out.1, { s with prioritized := out.2 })
  | _ => ([], s)

def popBackPushFront (s : InMemoryStore D R P) (src dst : CollectionSuffix) :
    Option ℕ × InMemoryStore D R P :=
  match src, dst with
  | .wait, .active =>
    match s.waiting.popBack with
    | (some value, waiting) => (some value, { s with waiting, active := s.active.pushFront value })
    | (none, waiting) => (none, { s with waiting })
  | _, _ => (none, s)

def setLock (s : InMemoryStore D R P) (col : CollectionSuffix) (token : Option JobToken)
    (lockDuration now : ℕ) : InMemoryStore D R P :=
  { s with
    locks := s.locks.insertExpirable col (token.elim Lock.stallCheck Lock.token) lockDuration now }

def setFields (s : InMemoryStore D R P) (id : ℕ) (fields : List (JobField R)) :
    InMemoryStore D R P :=
  { s with jobs := s.jobs.modify (.job id) fun job => fields.foldl Job.setField job }

/-- Set a deadline. The records are constant entries, which take none
(`RecordMap.timedMap_updateExpirationStatus`). -/
def expire (s : InMemoryStore D R P) (col : CollectionSuffix) (secs : ℤ) (now : ℕ) :
    InMemoryStore D R P :=
  match col with
  | .lock id =>
    { s with locks := (s.locks.updateExpirationStatus (.lock id) (1000 * secs.natAbs) now).2 }
  | .stalledCheck =>
    { s with locks := (s.locks.updateExpirationStatus .stalledCheck (1000 * secs.natAbs) now).2 }
  | _ => s

/-- A shared counter after `fetch_add` or `fetch_sub`; a subtraction wraps below zero. -/
def handleCounter (counter : ℕ) (delta : ℤ) : ℕ :=
  if 0 < delta then counter + delta.natAbs
  else if delta.natAbs ≤ counter then counter - delta.natAbs
  else 2 ^ 64 + counter - delta.natAbs

/-- A record after `incr`. The source adds in `i64`; this is its value as long as the sum is below
`2 ^ 63`. -/
def incrJob (job : Job D R P) (field : HashField) (delta : ℤ) : Job D R P :=
  match field with
  | .attemptsMade => { job with attemptsMade := (max (job.attemptsMade + delta) 0).toNat }
  | .stalledCounter => { job with stalledCounter := (max (job.stalledCounter + delta) 0).toNat }
  | .processing => job

def incr (s : InMemoryStore D R P) (key : CollectionSuffix) (delta : ℤ)
    (hashKey : Option HashField) : ℕ × InMemoryStore D R P :=
  match key with
  | .id =>
    let next := handleCounter s.idCounter delta
    (next, { s with idCounter := next })
  | .priorityCounter =>
    let next := handleCounter s.priorityCounter delta
    (next, { s with priorityCounter := next })
  | .metaKey =>
    let next := handleCounter s.processing delta
    (next, { s with processing := next })
  | .job id =>
    match hashKey with
    | some field =>
      let s := { s with jobs := s.jobs.modify (.job id) fun job => incrJob job field delta }
      ((s.getCounter (.job id) (some field)).getD 0, s)
    | none => (0, s)
  | _ => (0, s)

/-- Emit the event, refresh the cached metrics and signal the workers. -/
def publishEvent (s : InMemoryStore D R P) (event : QueueStreamEvent R P) : InMemoryStore D R P :=
  let metrics := s.storedMetrics.update s.getMetrics
  { s with
    events := s.events ++ [event]
    storedMetrics := metrics
    signal := pauseOrResumeWorkers metrics s.signal }

/-- The progress is written to the stored record of a job with an id. -/
def updateJobProgress (s : InMemoryStore D R P) (job : Job D R P) (value : P) :
    Job D R P × InMemoryStore D R P :=
  match job.id with
  | some id =>
    ({ job with progress := some value },
      { s with jobs := s.jobs.modify (.job id) fun job => { job with progress := some value } })
  | none => (job, s)

def clearCollections (s : InMemoryStore D R P) : InMemoryStore D R P :=
  { s with
    completed := .empty, failed := .empty, delayed := .empty, prioritized := .empty
    stalled := .empty, waiting := s.waiting.clear, paused := s.paused.clear
    active := s.active.clear }

def clearJobs (s : InMemoryStore D R P) : InMemoryStore D R P := { s with jobs := s.jobs.clear }

/-- Move the whole wait list to the paused list, or back, and set the flag. -/
def pause (s : InMemoryStore D R P) (pause : Bool) : InMemoryStore D R P :=
  if pause then
    let moved := ConcurrentDeque.drainInto s.waiting.len s.waiting s.paused
    { s with waiting := moved.1, paused := moved.2, isPaused := pause }
  else
    let moved := ConcurrentDeque.drainInto s.paused.len s.paused s.waiting
    { s with paused := moved.1, waiting := moved.2, isPaused := pause }

/-- The due jobs with `start ≤ score < stop`, the missed ones with `score < start - 1`,
and the store without both. The due entries are removed before the others are listed. -/
def getDelayedAt (s : InMemoryStore D R P) (start stop : ℤ) :
    (List ℕ × List ℕ) × InMemoryStore D R P :=
  let before := castUnsigned (start - 1)
  let end_ := castUnsigned stop
  let start := castUnsigned start
  let isDue := fun e : ℕ × ℕ => decide (start ≤ e.1 ∧ e.1 < end_)
  let isMissed := fun e : ℕ × ℕ => decide (e.1 < before)
  let rest := s.delayed.filter fun e => !isDue e
  (((s.delayed.filter isDue).values, (rest.filter isMissed).values),
    { s with delayed := rest.filter fun e => !isMissed e })

end InMemoryStore

end Kiomq
