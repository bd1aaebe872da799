import Kiomq.Redis.Counters
import Kiomq.Redis.Isolation
import Kiomq.Redis.JobUpdates

/-!
# Looking up jobs

`get_job` of the Redis store decodes the answer of `HGETALL` as an optional job. The answer for
an absent key is an empty map, and an empty map is read as a new job without a name: only the
value `Nil` would be read as `None`. `fetch_jobs` decodes the answers as jobs. So a job that does
not exist is returned as a blank one. The in-memory store omits it.
-/

namespace Kiomq

open Foundations Redis

variable {D R P M : Type}

/-- The three calls that look up jobs; `none` of `fetchJobs` is an error. -/
structure JobLookup (D R P : Type) where
  getJob : ℕ → Option (Job D R P)
  jobExists : ℕ → Bool
  fetchJobs : List ℕ → Option (List (Job D R P))

/-- Missing jobs are reported as missing: a job is found just if it exists, and those that do not
exist are omitted from a batch. -/
structure JobLookup.ReportsMissing (lookup : JobLookup D R P) (ids : List ℕ) : Prop where
  found : ∀ id ∈ ids, (lookup.getJob id).isSome = lookup.jobExists id
  fetched : lookup.fetchJobs ids = some ((ids.filter lookup.jobExists).filterMap lookup.getJob)

structure JobLookup.Agree (lookup lookup' : JobLookup D R P) (ids : List ℕ) : Prop where
  getJob : ∀ id ∈ ids, lookup.getJob id = lookup'.getJob id
  jobExists : ∀ id ∈ ids, lookup.jobExists id = lookup'.jobExists id
  fetchJobs : lookup.fetchJobs ids = lookup'.fetchJobs ids

namespace InMemoryStore

def fetchJobs (s : InMemoryStore D R P) (ids : List ℕ) : List (Job D R P) :=
  if ids.isEmpty then [] else ids.filterMap s.getJob

def lookup (s : InMemoryStore D R P) : JobLookup D R P where
  getJob := s.getJob
  jobExists := s.jobExists
  fetchJobs ids := some (s.fetchJobs ids)

end InMemoryStore

namespace RedisStore

/-- `Job::from_redis_value`, for any readers of the fields. -/
def readJob (F : RecordFormat (Job D R P) JobKey) (now : Dt) (fields : List (String × Text)) :
    Option (Job D R P) :=
  F.readEntries (Job.new "" none none none now) fields

/-- A hash that cannot be decoded is an error, which `ok` turns into `None`. -/
def getJob (T : CaseTable) (F : RecordFormat (Job D R P) JobKey) (st : RedisStore)
    (r : Server Text M) (now : Dt) (id : ℕ) : Option (Job D R P) :=
  readJob F now (r.hashes (st.recordKey T id))

def jobExists (T : CaseTable) (st : RedisStore) (r : Server Text M) (id : ℕ) : Bool :=
  r.keyExists (st.recordKey T id)

/-- One hash that cannot be decoded makes the whole call fail. -/
def fetchJobs (T : CaseTable) (F : RecordFormat (Job D R P) JobKey) (st : RedisStore)
    (r : Server Text M) (now : Dt) (ids : List ℕ) : Option (List (Job D R P)) :=
  if ids.isEmpty then some []
  else ids.mapM fun id => readJob F now (r.hashes (st.recordKey T id))

def lookup (T : CaseTable) (F : RecordFormat (Job D R P) JobKey) (st : RedisStore)
    (r : Server Text M) (now : Dt) : JobLookup D R P where
  getJob := st.getJob T F r now
  jobExists := st.jobExists T r
  fetchJobs := st.fetchJobs T F r now

/-- The server has a hash for each job in memory, which represents the job if it can be read at
all, and nothing for the other ids. -/
structure HoldsSame (T : CaseTable) (F : RecordFormat (Job D R P) JobKey) (st : RedisStore)
    (r : Server Text M) (s : InMemoryStore D R P) : Prop where
  absent : ∀ id, s.getJob id = none → r.keyExists (st.recordKey T id) = false
  present : ∀ id job, s.getJob id = some job → r.hashes (st.recordKey T id) ≠ [] ∧
    (F.Readable (r.hashes (st.recordKey T id)) →
      F.Represents (r.hashes (st.recordKey T id)) job)

end RedisStore

/-! ### In memory -/

theorem InMemoryStore.fetchJobs_eq (s : InMemoryStore D R P) (ids : List ℕ) :
    s.fetchJobs ids = ids.filterMap s.getJob := by
  cases ids <;> rfl

theorem InMemoryStore.reportsMissing (s : InMemoryStore D R P) (ids : List ℕ) :
    s.lookup.ReportsMissing ids := by
  have hall : ids.filterMap s.getJob = (ids.filter s.jobExists).filterMap s.getJob := by
    induction ids with
    | nil => rfl
    | cons id ids ih =>
      cases hget : s.getJob id with
      | none =>
        have hmissing : s.jobExists id = false := by simp [jobExists, hget]
        rw [List.filterMap_cons_none hget, List.filter_cons_of_neg (by simp [hmissing]), ih]
      | some job =>
        have hexists : s.jobExists id = true := by simp [jobExists, hget]
        rw [List.filterMap_cons_some hget, List.filter_cons_of_pos hexists,
          List.filterMap_cons_some hget, ih]
  exact ⟨fun _ _ => rfl, congrArg some ((s.fetchJobs_eq ids).trans hall)⟩

/-! ### On the server -/

namespace RedisStore

/-- An empty map is read as a blank job. -/
theorem readJob_nil (F : RecordFormat (Job D R P) JobKey) (now : Dt) :
    readJob F now [] = some (Job.new "" none none none now) := rfl

theorem keyExists_of_hash {r : Server Text M} {key : Key} (h : r.hashes key ≠ []) :
    r.keyExists key = true := by
  simp [Server.keyExists, h]

theorem mapM_eq_filterMap {α β : Type} {f : α → Option β} {l : List α}
    (h : ∀ a ∈ l, (f a).isSome = true) : l.mapM f = some (l.filterMap f) := by
  induction l with
  | nil => rfl
  | cons a l ih =>
    obtain ⟨b, hb⟩ := Option.isSome_iff_exists.mp (h a List.mem_cons_self)
    rw [List.mapM_cons, hb, ih fun x hx => h x (List.mem_cons_of_mem _ hx),
      List.filterMap_cons_some hb]
    rfl

variable {T : CaseTable} {F : RecordFormat (Job D R P) JobKey} {st : RedisStore}
  {r : Server Text M} {now : Dt} {s : InMemoryStore D R P}

theorem fetchJobs_eq (st : RedisStore) (r : Server Text M) (ids : List ℕ) :
    st.fetchJobs T F r now ids = ids.mapM (st.getJob T F r now) := by
  cases ids <;> rfl

theorem HoldsSame.readable (h : st.HoldsSame T F r s) {id : ℕ}
    (hfound : (st.getJob T F r now id).isSome = st.jobExists T r id) :
    (s.getJob id).isSome = true ∧ F.Readable (r.hashes (st.recordKey T id)) := by
  cases hget : s.getJob id with
  | none =>
    have habsent := h.absent id hget
    have hnil : r.hashes (st.recordKey T id) = [] := by
      by_contra hne
      rw [keyExists_of_hash hne] at habsent
      cases habsent
    rw [jobExists, habsent, getJob, hnil, readJob_nil] at hfound
    cases hfound
  | some job =>
    rw [jobExists, keyExists_of_hash (h.present id job hget).1] at hfound
    exact ⟨rfl, (RecordFormat.isSome_readEntries_iff _ _).mp hfound⟩

theorem HoldsSame.getJob_eq (h : st.HoldsSame T F r s) {id : ℕ}
    (hsome : (s.getJob id).isSome = true) (hread : F.Readable (r.hashes (st.recordKey T id))) :
    st.getJob T F r now id = s.getJob id := by
  obtain ⟨job, hjob⟩ := Option.isSome_iff_exists.mp hsome
  rw [hjob]
  exact ((h.present id job hjob).2 hread).readEntries_eq _

theorem HoldsSame.jobExists_eq (h : st.HoldsSame T F r s) {id : ℕ}
    (hsome : (s.getJob id).isSome = true) : st.jobExists T r id = true := by
  obtain ⟨job, hjob⟩ := Option.isSome_iff_exists.mp hsome
  exact keyExists_of_hash (h.present id job hjob).1

/-- Both stores report missing jobs as missing and give the same answers just if no job of the
list is missing and all their hashes can be read. -/
theorem reportsMissing_agree_iff (T : CaseTable) (F : RecordFormat (Job D R P) JobKey)
    (st : RedisStore) (r : Server Text M) (now : Dt) (s : InMemoryStore D R P)
    (h : st.HoldsSame T F r s) (ids : List ℕ) :
    (s.lookup.ReportsMissing ids ∧ (st.lookup T F r now).ReportsMissing ids ∧
        (st.lookup T F r now).Agree s.lookup ids) ↔
      ∀ id ∈ ids, (s.getJob id).isSome = true ∧ F.Readable (r.hashes (st.recordKey T id)) := by
  constructor
  · rintro ⟨-, hredis, -⟩ id hid
    exact h.readable (hredis.found id hid)
  · intro hread
    have hget : ∀ id ∈ ids, st.getJob T F r now id = s.getJob id := fun id hid =>
      h.getJob_eq (hread id hid).1 (hread id hid).2
    have hexists : ∀ id ∈ ids, st.jobExists T r id = true := fun id hid =>
      h.jobExists_eq (hread id hid).1
    have hsome : ∀ id ∈ ids, (st.getJob T F r now id).isSome = true := by
      intro id hid
      rw [hget id hid]
      exact (hread id hid).1
    have hfetch : st.fetchJobs T F r now ids = some (ids.filterMap (st.getJob T F r now)) :=
      (fetchJobs_eq st r ids).trans (mapM_eq_filterMap hsome)
    have hmemory := s.reportsMissing ids
    have hredis : (st.lookup T F r now).ReportsMissing ids := by
      have hkeep : ids.filter (st.lookup T F r now).jobExists = ids :=
        List.filter_eq_self.mpr hexists
      refine ⟨fun id hid => (hsome id hid).trans (hexists id hid).symm, hfetch.trans ?_⟩
      rw [hkeep]
      rfl
    have hagree : (st.lookup T F r now).Agree s.lookup ids := by
      refine ⟨hget, fun id hid => ?_, ?_⟩
      · exact (hexists id hid).trans (hread id hid).1.symm
      · refine hfetch.trans (congrArg some ?_)
        rw [List.filterMap_congr hget, InMemoryStore.fetchJobs_eq]
    exact ⟨hmemory, hredis, hagree⟩

/-! ### One record, and none -/

open RecordRun

def oneRecord : InMemoryStore String String ℕ :=
  (InMemoryStore.new none "mail").storeRecord 1 (mailJob mailStore.queueName)

theorem getJob_oneRecord (id : ℕ) :
    oneRecord.getJob id = if id = 1 then some (mailJob mailStore.queueName) else none := by
  simp only [oneRecord, InMemoryStore.getJob, InMemoryStore.storeRecord,
    RecordMap.get_insertConstant, CollectionSuffix.job.injEq]
  rfl

theorem represents_mailRun :
    mailCodec.format.Represents ((mailRun mailStore).server.hashes (mailStore.recordKey .ascii 1))
      (mailJob mailStore.queueName) := by
  have hkey : jobKey mailStore.queueName 1 = mailStore.recordKey .ascii 1 := by decide +kernel
  rw [← hkey]
  exact JobCodec.represents_prepareForInsert (prepareMail_eq mailStore) (List.cons_ne_nil _ _)
    (mailJob_fits _) rfl

theorem holdsSame_oneRecord :
    mailStore.HoldsSame .ascii mailCodec.format (mailRun mailStore).server oneRecord := by
  constructor
  · intro id hid
    have hne : id ≠ 1 := by
      rintro rfl
      simp [getJob_oneRecord] at hid
    have hrecord : mailStore.recordKey .ascii id ≠ jobKey mailStore.queueName 1 := by
      intro heq
      exact hne ((mailStore.jobKey_eq_recordKey_iff .ascii 1 id).mp heq.symm).1.symm
    have hwait : mailStore.recordKey .ascii id ≠ waitingKey .ascii mailStore.queueName false := by
      intro heq
      have hwaiting : waitingKey .ascii mailStore.queueName false =
          CollectionSuffix.wait.toCollectionName .ascii mailStore.keyPrefix mailStore.name := by
        decide +kernel
      rw [hwaiting] at heq
      exact absurd (CollectionSuffix.suffix_eq_of_toCollectionName_eq heq) (by simp)
    simp [Server.keyExists, mailRun, mailCommands, Server.execAll, Server.exec, Server.empty,
      reportCommand, hrecord, hwait]
  · intro id job hjob
    rw [getJob_oneRecord] at hjob
    split_ifs at hjob with hid
    obtain rfl := Option.some.inj hjob
    subst hid
    obtain ⟨e, he, -⟩ := represents_mailRun.complete .id
    exact ⟨List.ne_nil_of_mem he, fun _ => represents_mailRun⟩

theorem oneRecord_found :
    (mailStore.lookup .ascii mailCodec.format (mailRun mailStore).server 0).ReportsMissing [1] := by
  have hread : ∀ id ∈ [1], (oneRecord.getJob id).isSome = true ∧
      mailCodec.format.Readable
        ((mailRun mailStore).server.hashes (mailStore.recordKey .ascii id)) := by
    intro id hid
    obtain rfl := List.mem_singleton.mp hid
    refine ⟨by rw [getJob_oneRecord, if_pos rfl]; rfl, ?_⟩
    rw [← RecordFormat.isSome_readEntries_iff (mailJob mailStore.queueName),
      represents_mailRun.readEntries_eq]
    rfl
  exact ((reportsMissing_agree_iff .ascii mailCodec.format mailStore (mailRun mailStore).server 0
    oneRecord holdsSame_oneRecord [1]).mpr hread).2.1

/-- Two empty stores and the id 7: Redis returns a blank job, of which it says that it does not
exist. -/
theorem missing_job_blank :
    mailStore.HoldsSame .ascii mailCodec.format (Server.empty : Server Text Unit)
        (InMemoryStore.new none "mail") ∧
      mailStore.jobExists .ascii (Server.empty : Server Text Unit) 7 = false ∧
      mailStore.getJob .ascii mailCodec.format (Server.empty : Server Text Unit) 0 7 =
        some (Job.new "" none none none 0) ∧
      mailStore.fetchJobs .ascii mailCodec.format (Server.empty : Server Text Unit) 0 [7] =
        some [Job.new "" none none none 0] ∧
      (InMemoryStore.new none "mail" : InMemoryStore String String ℕ).fetchJobs [7] = [] :=
  ⟨⟨fun _ _ => rfl, fun _ _ h => by cases h⟩, rfl, rfl, rfl, rfl⟩

end RedisStore

end Kiomq
