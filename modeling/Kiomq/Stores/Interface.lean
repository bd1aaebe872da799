import Kiomq.Foundations.Programs
import Kiomq.Queue.Stalled
import Kiomq.Redis.Lookup

/-!
# The interface of a store

The queue is generic in its store: it reaches the data through the methods of the trait
`Store` only. A call carries the arguments of a method. The methods that add jobs, clear
the store, report metrics of workers and serve listeners are no calls here. A counter is
read as every caller reads it, with zero for a missing one.
-/

namespace Kiomq

open Foundations

/-- An error of a queue operation, or one that a server answers with. -/
inductive StoreError
  | kio (e : KioError)
  | server
  deriving DecidableEq, Repr

abbrev StoreResult (α : Type) := Except StoreError α

/-- The names that counters are asked for by. One of them is asked for in two spellings. -/
inductive CounterName
  | attemptsMade
  | attemptsMadeSnake
  | stalledCounter
  | processing
  deriving DecidableEq, Repr

namespace CounterName

def text : CounterName → String
  | attemptsMade => "attemptsMade"
  | attemptsMadeSnake => "attempts_made"
  | stalledCounter => "stalledCounter"
  | processing => "processing"

/-- The in-memory store knows both spellings. -/
def field : CounterName → HashField
  | attemptsMade => .attemptsMade
  | attemptsMadeSnake => .attemptsMade
  | stalledCounter => .stalledCounter
  | processing => .processing

end CounterName

inductive StoreCall (R P : Type)
  | getMetrics
  | getJob (id : ℕ)
  | fetchJobs (ids : List ℕ)
  | getState (id : ℕ)
  | getToken (id : ℕ)
  | getCounter (key : CollectionSuffix) (hashKey : Option CounterName)
  | existsIn (col : CollectionSuffix) (item : ℕ)
  | jobExists (id : ℕ)
  | getJobIdsInState (state : JobState) (start stop : Option ℕ)
  | addItem (col : CollectionSuffix) (item : ℕ) (score : Option ℤ) (append : Bool)
  | removeItem (col : CollectionSuffix) (item : ℕ)
  | remove (key : CollectionSuffix)
  | popSet (col : CollectionSuffix) (min : Bool)
  | popBackPushFront (src dst : CollectionSuffix)
  | getDelayedAt (start stop : ℤ)
  | setLock (col : CollectionSuffix) (token : Option JobToken) (lockDuration : ℕ)
  | setFields (id : ℕ) (fields : List (JobField R))
  | incr (key : CollectionSuffix) (delta : ℤ) (hashKey : Option CounterName)
  | expire (col : CollectionSuffix) (secs : ℤ)
  | publishEvent (eventMode : QueueEventMode) (event : QueueStreamEvent R P)
  | pause (pause : Bool)

variable {D R P : Type}

def StoreCall.Answer (D : Type) : StoreCall R P → Type
  | getMetrics => StoreResult QueueMetrics
  | getJob _ => Option (Job D R P)
  | fetchJobs _ => StoreResult (List (Job D R P))
  | getState _ => Option JobState
  | getToken _ => Option JobToken
  | getCounter _ _ => ℕ
  | existsIn _ _ => StoreResult Bool
  | jobExists _ => Bool
  | getJobIdsInState _ _ _ => StoreResult (List ℕ)
  | popSet _ _ => StoreResult (List (ℕ × ℕ))
  | popBackPushFront _ _ => Option ℕ
  | getDelayedAt _ _ => StoreResult (List ℕ × List ℕ)
  | incr _ _ _ => StoreResult ℕ
  | addItem _ _ _ _ | removeItem _ _ | remove _ | setLock _ _ _ | setFields _ _ | expire _ _
  | publishEvent _ _ | pause _ => StoreResult Unit

def storeInterface (D R P : Type) : Interface := ⟨StoreCall R P, StoreCall.Answer D⟩

/-- A computation of a queue over any store. -/
abbrev StoreM (D R P : Type) := Procedure (storeInterface D R P) StoreError

/-! ### The methods -/

namespace Store

def getMetrics : StoreM D R P QueueMetrics := .attempt (I := storeInterface D R P) .getMetrics id

def getJob (jobId : ℕ) : StoreM D R P (Option (Job D R P)) :=
  .call (I := storeInterface D R P) (.getJob jobId)

def getState (jobId : ℕ) : StoreM D R P (Option JobState) :=
  .call (I := storeInterface D R P) (.getState jobId)

def getToken (jobId : ℕ) : StoreM D R P (Option JobToken) :=
  .call (I := storeInterface D R P) (.getToken jobId)

def getCounter (key : CollectionSuffix) (hashKey : Option CounterName) : StoreM D R P ℕ :=
  .call (I := storeInterface D R P) (.getCounter key hashKey)

def existsIn (col : CollectionSuffix) (item : ℕ) : StoreM D R P Bool :=
  .attempt (I := storeInterface D R P) (.existsIn col item) id

def jobExists (jobId : ℕ) : StoreM D R P Bool :=
  .call (I := storeInterface D R P) (.jobExists jobId)

def getJobIdsInState (state : JobState) (start stop : Option ℕ) : StoreM D R P (List ℕ) :=
  .attempt (I := storeInterface D R P) (.getJobIdsInState state start stop) id

def addItem (col : CollectionSuffix) (item : ℕ) (score : Option ℤ) (append : Bool) :
    StoreM D R P Unit :=
  .attempt (I := storeInterface D R P) (.addItem col item score append) id

def removeItem (col : CollectionSuffix) (item : ℕ) : StoreM D R P Unit :=
  .attempt (I := storeInterface D R P) (.removeItem col item) id

def remove (key : CollectionSuffix) : StoreM D R P Unit :=
  .attempt (I := storeInterface D R P) (.remove key) id

def popSet (col : CollectionSuffix) (min : Bool) : StoreM D R P (List (ℕ × ℕ)) :=
  .attempt (I := storeInterface D R P) (.popSet col min) id

def popBackPushFront (src dst : CollectionSuffix) : StoreM D R P (Option ℕ) :=
  .call (I := storeInterface D R P) (.popBackPushFront src dst)

def getDelayedAt (start stop : ℤ) : StoreM D R P (List ℕ × List ℕ) :=
  .attempt (I := storeInterface D R P) (.getDelayedAt start stop) id

def setLock (col : CollectionSuffix) (token : Option JobToken) (lockDuration : ℕ) :
    StoreM D R P Unit :=
  .attempt (I := storeInterface D R P) (.setLock col token lockDuration) id

def setFields (jobId : ℕ) (fields : List (JobField R)) : StoreM D R P Unit :=
  .attempt (I := storeInterface D R P) (.setFields jobId fields) id

def incr (key : CollectionSuffix) (delta : ℤ) (hashKey : Option CounterName) : StoreM D R P ℕ :=
  .attempt (I := storeInterface D R P) (.incr key delta hashKey) id

def expire (col : CollectionSuffix) (secs : ℤ) : StoreM D R P Unit :=
  .attempt (I := storeInterface D R P) (.expire col secs) id

def publishEvent (eventMode : QueueEventMode) (event : QueueStreamEvent R P) :
    StoreM D R P Unit :=
  .attempt (I := storeInterface D R P) (.publishEvent eventMode event) id

def pause (pause : Bool) : StoreM D R P Unit :=
  .attempt (I := storeInterface D R P) (.pause pause) id

end Store

/-! ### In memory -/

/-- The in-memory store at the given time. None of these methods fails. -/
def InMemoryStore.perform (clock : Clock) :
    Implementation (storeInterface D R P) (InMemoryStore D R P)
  | .getMetrics, s => (.ok s.getMetrics, s)
  | .getJob jobId, s => (s.getJob jobId, s)
  | .fetchJobs ids, s => (.ok (s.fetchJobs ids), s)
  | .getState jobId, s => (s.getState jobId, s)
  | .getToken jobId, s => s.getToken jobId clock.instant
  | .getCounter key hashKey, s =>
    ((s.getCounter key (hashKey.map CounterName.field)).getD 0, s)
  | .existsIn col item, s =>
    let out := s.existsIn col item clock.instant
    (.ok out.1, out.2)
  | .jobExists jobId, s => (s.jobExists jobId, s)
  | .getJobIdsInState state start stop, s => (.ok (s.getJobIdsInState state start stop), s)
  | .addItem col item score append, s => (.ok (), s.addItem col item score append)
  | .removeItem col item, s => (.ok (), s.removeItem col item)
  | .remove key, s => (.ok (), s.remove key)
  | .popSet col min, s =>
    let out := s.popSet col min
    (.ok out.1, out.2)
  | .popBackPushFront src dst, s => s.popBackPushFront src dst
  | .getDelayedAt start stop, s =>
    let out := s.getDelayedAt start stop
    (.ok out.1, out.2)
  | .setLock col token lockDuration, s =>
    (.ok (), s.setLock col token lockDuration clock.instant)
  | .setFields jobId fields, s => (.ok (), s.setFields jobId fields)
  | .incr key delta hashKey, s =>
    let out := s.incr key delta (hashKey.map CounterName.field)
    (.ok out.1, out.2)
  | .expire col secs, s => (.ok (), s.expire col secs clock.instant)
  | .publishEvent _ event, s => (.ok (), s.publishEvent event)
  | .pause pause, s => (.ok (), s.pause pause)

end Kiomq
