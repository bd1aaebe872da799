import Kiomq.Redis.Layout
import Kiomq.Redis.StreamEvents

/-!
# Obliterating a Redis queue

`obliterate` deletes the job hashes of the ids from 1 to the last id in the cached metrics,
under the keys that readers use. A hash stays if its id is above the cached one, which lags
behind the store until an event is consumed or the metrics are read, or if it was written
to a key that lowercasing changes.
-/

namespace Kiomq

open Foundations Redis

variable {R P M V : Type}

namespace Redis.Database

/-- `DEL`, in whatever keyspace the key is. -/
def del (db : Database V M) (key : Key) : Database V M where
  strings := Function.update db.strings key none
  lists := Function.update db.lists key []
  zsets := Function.update db.zsets key []
  hashes := Function.update db.hashes key []
  streams := Function.update db.streams key []
  published := db.published
  sets := Function.update db.sets key []

def delAll (db : Database V M) (keys : List Key) : Database V M := keys.foldl del db

theorem hashes_delAll (db : Database V M) (keys : List Key) (key : Key) :
    (db.delAll keys).hashes key = if key ∈ keys then [] else db.hashes key := by
  induction keys generalizing db with
  | nil => rfl
  | cons k keys ih =>
    rw [delAll, List.foldl_cons, ← delAll, ih]
    by_cases hkey : key = k
    · simp [hkey, del]
    · simp [hkey, del]

end Redis.Database

namespace QueueMetrics

/-- `clear`: the default counters; the pause flag stays, as in every update. -/
def clear (m : QueueMetrics) : QueueMetrics := m.update {}

end QueueMetrics

namespace RedisStore

def jobKeys (T : CaseTable) (st : RedisStore) (lastId : ℕ) : List Key :=
  (List.range' 1 lastId).map (st.recordKey T)

def clearJobs (T : CaseTable) (st : RedisStore) (lastId : ℕ) (db : Database V M) :
    Database V M :=
  db.delAll (st.jobKeys T lastId)

/-- The collections that `clear_collections` deletes; the events are named twice. -/
def clearedCollections : List CollectionSuffix :=
  [.delayed, .wait, .active, .completed, .failed, .events, .id, .events, .stalled, .marker,
    .prioritized, .priorityCounter, .metaKey, .paused]

def collectionKeys (T : CaseTable) (st : RedisStore) : List Key :=
  clearedCollections.map fun suffix => suffix.toCollectionName T st.keyPrefix st.name

def clearCollections (T : CaseTable) (st : RedisStore) (db : Database V M) : Database V M :=
  db.delAll (st.collectionKeys T)

/-- The job has a hash, under the key that `prepare_for_insert` writes to or under the one
that all other operations use. -/
def HasJobHash (T : CaseTable) (st : RedisStore) (db : Database V M) (id : ℕ) : Prop :=
  db.hashes (jobKey st.queueName id) ≠ [] ∨ db.hashes (st.recordKey T id) ≠ []

end RedisStore

/-- `Queue::obliterate` on the data of the store and the cached metrics. -/
def RedisQueue.obliterate (T : CaseTable) (codec : EventCodec R P) (st : RedisStore)
    (idText : List Char) (q : RedisQueue) (db : Database V (QueueStreamEvent R P)) :
    RedisQueue × Database V (QueueStreamEvent R P) :=
  let lastId := q.currentMetrics.lastId
  let db := st.clearCollections T (st.clearJobs T lastId db)
  let event : QueueStreamEvent R P := { jobId := lastId, event := .obliterated }
  let db := { db with toServer := st.publishEvent T codec q.eventMode idText event db.toServer }
  ({ q with currentMetrics := q.currentMetrics.clear }, st.clearCollections T db)

namespace RedisStore

variable (T : CaseTable) (st : RedisStore)

/-! ### Which keys are deleted -/

theorem clearedCollections_letter : ∀ suffix ∈ clearedCollections,
    isAscii (':' :: suffix.display) = true ∧
      ((':' :: suffix.display).map Char.toLower).getLast?.any (fun c => !c.isDigit) = true := by
  decide

theorem notMem_collectionKeys (s : List Char) (id : ℕ) :
    s ++ ':' :: Nat.toDigits 10 id ∉ st.collectionKeys T := by
  intro h
  obtain ⟨suffix, hmem, heq⟩ := List.mem_map.mp h
  obtain ⟨hascii, hletter⟩ := clearedCollections_letter suffix hmem
  obtain ⟨c, hc, hcletter⟩ := (Option.any_eq_true _ _).mp hletter
  have hlast := List.getLast?_eq_some_getLast (Nat.toDigits_ne_nil (n := id) (b := 10))
  have hdigit := isDigit_of_mem_toDigits (List.getLast_mem (Nat.toDigits_ne_nil (n := id)))
  rw [CollectionSuffix.toCollectionName_eq, T.toLowercase_append_ascii _ hascii] at heq
  have hends := congrArg List.getLast? heq
  rw [List.getLast?_append, hc, List.getLast?_append, List.getLast?_cons, hlast] at hends
  obtain rfl := Option.some.inj hends
  simp [hdigit] at hcletter

theorem mem_jobKeys_iff (lastId id : ℕ) :
    st.recordKey T id ∈ st.jobKeys T lastId ↔ 1 ≤ id ∧ id ≤ lastId := by
  rw [jobKeys, List.mem_map_of_injective (st.recordKey_injective T), List.mem_range'_1]
  omega

theorem jobKey_mem_jobKeys_iff (lastId id : ℕ) :
    jobKey st.queueName id ∈ st.jobKeys T lastId ↔
      (1 ≤ id ∧ id ≤ lastId) ∧ T.Fixed st.queueName.toList := by
  constructor
  · intro h
    obtain ⟨j, hj, heq⟩ := List.mem_map.mp h
    obtain ⟨rfl, hfixed⟩ := (st.jobKey_eq_recordKey_iff T id j).mp heq.symm
    rw [List.mem_range'_1] at hj
    exact ⟨by omega, hfixed⟩
  · rintro ⟨hrange, hfixed⟩
    rw [(st.jobKey_eq_recordKey_iff T id id).mpr ⟨rfl, hfixed⟩]
    exact (st.mem_jobKeys_iff T lastId id).mpr hrange

variable {T st}

theorem hashes_publishEvent (codec : EventCodec R P) (mode : QueueEventMode)
    (idText : List Char) (event : QueueStreamEvent R P) (r : Server V (QueueStreamEvent R P)) :
    (st.publishEvent T codec mode idText event r).hashes = r.hashes := by
  cases mode <;> rfl

theorem hashes_obliterate (codec : EventCodec R P) (idText : List Char) (q : RedisQueue)
    (db : Database V (QueueStreamEvent R P)) {key : Key} (hkey : key ∉ st.collectionKeys T) :
    (q.obliterate T codec st idText db).2.hashes key =
      if key ∈ st.jobKeys T q.currentMetrics.lastId then [] else db.hashes key := by
  simp only [RedisQueue.obliterate, clearCollections, clearJobs, Database.hashes_delAll,
    if_neg hkey, hashes_publishEvent]

/-- For every state of the store and of the cached metrics, however far they are apart: no
job hash is left just if every job hash has an id that the cached counter covers and was
not written to a key that lowercasing changes. -/
theorem obliterate_clears_iff (T : CaseTable) (codec : EventCodec R P) (st : RedisStore)
    (idText : List Char) (q : RedisQueue) (db : Database V (QueueStreamEvent R P)) :
    (∀ id, ¬ st.HasJobHash T (q.obliterate T codec st idText db).2 id) ↔
      ∀ id, st.HasJobHash T db id →
        (1 ≤ id ∧ id ≤ q.currentMetrics.lastId) ∧
          (db.hashes (jobKey st.queueName id) ≠ [] → T.Fixed st.queueName.toList) := by
  have hwritten : ∀ id, jobKey st.queueName id ∉ st.collectionKeys T :=
    fun id => st.notMem_collectionKeys T _ id
  have hread : ∀ id, st.recordKey T id ∉ st.collectionKeys T := by
    intro id
    rw [recordKey_eq]
    exact st.notMem_collectionKeys T _ id
  apply forall_congr'
  intro id
  simp only [HasJobHash, hashes_obliterate codec idText q db (hwritten id),
    hashes_obliterate codec idText q db (hread id), mem_jobKeys_iff, jobKey_mem_jobKeys_iff]
  by_cases hrange : 1 ≤ id ∧ id ≤ q.currentMetrics.lastId
  · by_cases hfixed : T.Fixed st.queueName.toList
    · simp [hrange, hfixed]
    · simp only [hrange, hfixed, and_self, and_false, if_true, if_false, true_and]
      tauto
  · simp [hrange]

/-- A queue is opened on an empty server, and then one job is added. -/
def unseenJob : Database Text (QueueStreamEvent String Unit) where
  toServer := ((RedisStore.new none "mail").add .ascii
    (fun job : Job String String Unit => [("name", Codec.string.pretty job.name)]) {} .empty
    ⟨[("greet", none, "hello")], .stream, false, false, 0⟩).2
  sets := fun _ => []

def openedBefore : RedisQueue :=
  (RedisQueue.new .ascii (RedisStore.new none "mail") none
    (⟨.empty, fun _ => []⟩ : Database Text (QueueStreamEvent String Unit))).1

/-- The queue has not consumed the event of the job, and its cached counter is still 0. -/
theorem obliterate_leaves_unseen_job :
    openedBefore.currentMetrics.lastId = 0 ∧
      unseenJob.get ((RedisStore.new none "mail").idKey .ascii) = some 1 ∧
      (openedBefore.obliterate .ascii EventCodec.orderCodec (RedisStore.new none "mail") []
        unseenJob).2.hget ((RedisStore.new none "mail").recordKey .ascii 1) "name" =
          some (jsonString "greet".toList) ∧
      ¬ ∀ id, ¬ (RedisStore.new none "mail").HasJobHash .ascii
        (openedBefore.obliterate .ascii EventCodec.orderCodec (RedisStore.new none "mail") []
          unseenJob).2 id := by
  refine ⟨by decide +kernel, by decide +kernel, by decide +kernel, fun h => ?_⟩
  apply h 1
  right
  decide +kernel

end RedisStore

end Kiomq
