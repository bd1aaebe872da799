import Kiomq.Foundations.Decimal
import Kiomq.Queue.Metrics
import Kiomq.Redis.Pause

/-!
# Queues opened on a Redis store

Every instance of a queue caches the metrics that it last read. `Queue::new` reads them
from the server and may set the event mode there; `get_metrics` refreshes the cached copy.
The cells of the cached copy and of `event_mode` are the same, while the mode of the
listener is fixed when it starts. The texts in hashes are lists of characters.
-/

namespace Kiomq

open Foundations Redis

namespace Redis

abbrev Text := List Char

/-- A server together with its sets. -/
structure Database (V M : Type) extends Server V M where
  sets : Key → List ℕ

end Redis

/-! ### The event mode as a text -/

namespace QueueEventMode

def text : QueueEventMode → Text
  | .pubSub => ['1']
  | .stream => ['0']

/-- The number must be a byte; one without a mode stands for the default. -/
def ofText (value : Text) : Option QueueEventMode :=
  (parseUnsigned 8 value).map fun n => if n = 1 then .pubSub else .stream

theorem ofText_text (mode : QueueEventMode) : ofText mode.text = some mode := by
  cases mode <;> decide

end QueueEventMode

namespace RedisStore

variable {M : Type}

/-- A field that may be missing, but must be readable if it is there. -/
def readField {α : Type} (parse : Text → Option α) : Option Text → Option (Option α)
  | none => some none
  | some value => (parse value).map some

/-- `get_queue_metrics`, or `none` if a field of the metadata cannot be read. -/
def getMetrics (T : CaseTable) (st : RedisStore) (db : Database Text M) : Option QueueMetrics :=
  let key := fun suffix : CollectionSuffix => suffix.toCollectionName T st.keyPrefix st.name
  (readField (parseUnsigned 64) (db.hget (st.metaKey T) "processing")).bind fun processing =>
    (readField QueueEventMode.ofText (db.hget (st.metaKey T) "event_mode")).map fun eventMode =>
      { lastId := (db.get (st.idKey T)).getD 0
        processing := processing.getD 0
        active := (db.lists (key .active)).length
        stalled := (db.sets (key .stalled)).length
        completed := (db.zsets (key .completed)).length
        delayed := (db.zsets (key .delayed)).length
        prioritized := (db.zsets (key .prioritized)).length
        paused := (db.lists (key .paused)).length
        failed := (db.zsets (key .failed)).length
        waiting := (db.lists (key .wait)).length
        isPaused := db.hexists (st.metaKey T) "paused"
        eventMode := eventMode.getD .stream }

def metadataFieldExists (T : CaseTable) (st : RedisStore) (db : Database Text M)
    (field : String) : Bool :=
  db.hexists (st.metaKey T) field

def setEventMode (T : CaseTable) (st : RedisStore) (db : Database Text M)
    (eventMode : QueueEventMode) : Database Text M :=
  { db with
    toServer := db.exec (.hsetMultiple (st.metaKey T) [("event_mode", eventMode.text)]) }

end RedisStore

/-- An instance of a queue on a Redis store. Its `event_mode` is a cell of the metrics. -/
structure RedisQueue where
  currentMetrics : QueueMetrics
  listenerMode : QueueEventMode
  deriving DecidableEq

namespace RedisQueue

variable {M : Type}

def eventMode (q : RedisQueue) : QueueEventMode := q.currentMetrics.eventMode

/-- `Queue::new`. Metrics that cannot be read are replaced by the default ones. -/
def new (T : CaseTable) (st : RedisStore) (queueOpts : Option QueueOpts)
    (db : Database Text M) : RedisQueue × Database Text M :=
  let opts := queueOpts.getD {}
  let metrics := (st.getMetrics T db).getD {}
  let eventModeExists := st.metadataFieldExists T db "event_mode"
  match opts.eventMode with
  | some passedMode =>
    if !eventModeExists && decide (passedMode ≠ metrics.eventMode) then
      (⟨{ metrics with eventMode := passedMode }, passedMode⟩, st.setEventMode T db passedMode)
    else (⟨metrics, metrics.eventMode⟩, db)
  | none => (⟨metrics, metrics.eventMode⟩, db)

/-- `Queue::get_metrics`, which the listener also does after an event: the cached copy takes
what is read, and stays if nothing can be read. -/
def getMetrics (T : CaseTable) (st : RedisStore) (db : Database Text M) (q : RedisQueue) :
    RedisQueue :=
  { q with currentMetrics := (st.getMetrics T db).elim q.currentMetrics q.currentMetrics.update }

end RedisQueue

end Kiomq
