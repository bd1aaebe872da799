import Kiomq.Redis.DelayedSets
import Kiomq.Redis.Keyspace
import Kiomq.Stores.Interface

/-!
# The Redis store behind the interface

The methods of `RedisStore` that make up the interface of a store. Every call sees the keys
that have not expired. An error reply, and a reply that cannot be read as the type of the
answer, is an error of the call. The connection does not fail.
-/

namespace Kiomq

open Foundations Redis

variable {D R P M : Type}

/-- The codecs of the values that the store writes. The text of the stream id is not sent. -/
structure RedisCodec (D R P : Type) where
  job : JobCodec D R P
  event : EventCodec R P
  idText : List Char

namespace RedisStore

def key (T : CaseTable) (st : RedisStore) (suffix : CollectionSuffix) : Key :=
  suffix.toCollectionName T st.keyPrefix st.name

def isScored : CollectionSuffix → Bool
  | .completed | .delayed | .failed | .prioritized => true
  | _ => false

def isList : CollectionSuffix → Bool
  | .active | .wait | .paused => true
  | _ => false

def readU64 (n : ℤ) : StoreResult ℕ := if 0 ≤ n then .ok n.toNat else .error .server

def readReply {α : Type} : Option α → StoreResult α
  | some a => .ok a
  | none => .error .server

def readListing : Except ListingError (List ℕ) → StoreResult (List ℕ)
  | .ok ids => .ok ids
  | .error .wrongType => .error .server
  | .error .panicked => .error (.kio (.panicked "range end index out of range"))

namespace Calls

variable (T : CaseTable) (st : RedisStore) (db : Keyspace M)

/-- The paused list is looked at as a whole, like a key without members. -/
def existsIn (col : CollectionSuffix) (item : ℕ) : StoreResult Bool :=
  let key := st.key T col
  match col with
  | .completed | .delayed | .failed | .prioritized =>
    (db.zscore key item).elim (.ok false) fun score => (readU64 score).map fun _ => true
  | .stalled => .ok (decide (item ∈ db.sets key))
  | .active | .wait => .ok (decide (item ∈ db.lists key))
  | _ => .ok (db.keyExists key)

/-- A missing score is zero. -/
def addItem (col : CollectionSuffix) (item : ℕ) (score : Option ℤ) (append : Bool) : Keyspace M :=
  let key := st.key T col
  if isScored col then db.onServer fun r => r.exec (.zadd key item (score.getD 0))
  else if col = .stalled then db.sadd key item
  else if isList col then
    if append then db.onServer fun r => r.exec (.lpush key item)
    else db.onServer fun r => r.rpush key item
  else db

def removeItem (col : CollectionSuffix) (item : ℕ) : Keyspace M :=
  let key := st.key T col
  if isScored col then db.onServer fun r => r.zrem key item
  else if col = .stalled then db.srem key item
  else if isList col then db.onServer fun r => r.lrem key item
  else db

def popSet (col : CollectionSuffix) (min : Bool) : StoreResult (List (ℕ × ℕ)) × Keyspace M :=
  let out := db.zpop (st.key T col) min
  let answer : StoreResult (List (ℕ × ℕ)) :=
    match out.1 with
    | none => .ok []
    | some e => (readU64 e.2).map fun score => [(e.1, score)]
  (answer, db.onServer fun _ => out.2)

def popBackPushFront (src dst : CollectionSuffix) : Option ℕ × Keyspace M :=
  let out := db.rpoplpush (st.key T src) (st.key T dst)
  (out.1, db.onServer fun _ => out.2)

/-- The token of a lock, or of the record if the key of the lock is gone. -/
def getToken (codec : JobCodec D R P) (jobId : ℕ) : Option JobToken :=
  let read := fun text => if text = nullText then none else codec.token.decode text
  ((db.texts (st.key T (.lock jobId))).bind read).or
    ((db.hget (st.recordKey T jobId) "token").bind read)

def getState (jobId : ℕ) : Option JobState :=
  (db.hget (st.recordKey T jobId) "state").bind JobState.ofText

/-- A counter in a hash or under a key of its own; a missing one is read as zero. -/
def getCounter (key : CollectionSuffix) (hashKey : Option CounterName) : ℕ :=
  match hashKey with
  | some field => ((db.hget (st.key T key) field.text).bind (parseUnsigned 64)).getD 0
  | none => (db.get (st.key T key)).getD 0

def incr (key : CollectionSuffix) (delta : ℤ) (hashKey : Option CounterName) :
    StoreResult ℕ × Keyspace M :=
  match hashKey with
  | some field =>
    let out := hincrby db.toServer (st.key T key) field.text delta
    ((readReply out.1).bind readU64, db.onServer fun _ => out.2)
  | none =>
    let out := db.incrby (st.key T key) delta
    (readReply out.1, db.onServer fun _ => out.2)

/-- A lock without a token is not set; the marker of the stalled check is a time. -/
def setLock (codec : JobCodec D R P) (col : CollectionSuffix) (token : Option JobToken)
    (lockDuration : ℕ) (clock : Clock) : StoreResult Unit × Keyspace M :=
  let send := fun value =>
    match db.psetex (st.key T col) value lockDuration clock.instant with
    | some db => (.ok (), db)
    | none => (.error .server, db)
  match col, token with
  | .lock _, some token => send (codec.token.compact token)
  | .stalledCheck, _ => send (integerText clock.utc.timestampMicros)
  | _, _ => (.ok (), db)

def expire (col : CollectionSuffix) (secs : ℤ) (clock : Clock) : StoreResult Unit × Keyspace M :=
  match db.expire (st.key T col) secs clock.instant with
  | some db => (.ok (), db)
  | none => (.error .server, db)

/-- `HSET` without fields is refused. -/
def setFields (codec : JobCodec D R P) (jobId : ℕ) (fields : List (JobField R)) :
    StoreResult Unit × Keyspace M :=
  if fields.isEmpty then (.error .server, db)
  else (.ok (), db.onServer (RedisStore.setFields T st codec jobId fields))

def getJobIdsInState (state : JobState) (start stop : Option ℕ) : StoreResult (List ℕ) :=
  if state = .stalled then
    readListing <|
      match db.smembers (st.key T (.ofJobState state)) with
      | .error e => .error e
      | .ok set =>
        if set.isEmpty then .ok [] else dequeRange set (start.getD 0) (stop.getD set.length)
  else readListing (RedisStore.getJobIdsInState T st db.toServer state start stop)

end Calls

def perform (T : CaseTable) (st : RedisStore) (codec : RedisCodec D R P) (clock : Clock) :
    Implementation (storeInterface D R P) (Keyspace (QueueStreamEvent R P)) := fun c db =>
  let db := db.purge clock.instant
  match c with
  | .getMetrics => (readReply (st.getMetrics T db.toDatabase), db)
  | .getJob jobId => (st.getJob T codec.job.format db.toServer clock.utc jobId, db)
  | .fetchJobs ids =>
    (readReply (st.fetchJobs T codec.job.format db.toServer clock.utc ids), db)
  | .getState jobId => (Calls.getState T st db jobId, db)
  | .getToken jobId => (Calls.getToken T st db codec.job jobId, db)
  | .getCounter key hashKey => (Calls.getCounter T st db key hashKey, db)
  | .existsIn col item => (Calls.existsIn T st db col item, db)
  | .jobExists jobId => (db.keyExists (st.recordKey T jobId), db)
  | .getJobIdsInState state start stop => (Calls.getJobIdsInState T st db state start stop, db)
  | .addItem col item score append => (.ok (), Calls.addItem T st db col item score append)
  | .removeItem col item => (.ok (), Calls.removeItem T st db col item)
  | .remove key => (.ok (), db.del (st.key T key))
  | .popSet col min => Calls.popSet T st db col min
  | .popBackPushFront src dst => Calls.popBackPushFront T st db src dst
  | .getDelayedAt start stop =>
    let out := st.getDelayedAt T db.toServer start stop
    (.ok out.1, db.onServer fun _ => out.2)
  | .setLock col token lockDuration => Calls.setLock T st db codec.job col token lockDuration clock
  | .setFields jobId fields => Calls.setFields T st db codec.job jobId fields
  | .incr key delta hashKey => Calls.incr T st db key delta hashKey
  | .expire col secs => Calls.expire T st db col secs clock
  | .publishEvent eventMode event =>
    (.ok (), db.onServer (st.publishEvent T codec.event eventMode codec.idText event))
  | .pause pause => (.ok (), db.onServer fun r => st.pause T ['1'] r pause)

end RedisStore

end Kiomq
