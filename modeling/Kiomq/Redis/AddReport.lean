import Kiomq.Queue.BatchFailure
import Kiomq.Redis.Counters
import Kiomq.Redis.Isolation
import Kiomq.Redis.JobRecord

/-!
# What `add` reports and what it stores

`add` ignores the answer of `prepare_for_insert`. A job whose delay is too short is reported
like the others, although no command was queued for it. A job with a negative delay gets a
record but no place. And in a queue whose name has capital letters the records are written to
keys that no reader uses.
-/

namespace Kiomq

open Foundations Redis InMemoryStore

variable {D R P V M : Type}

/-- The job is put in a collection: it has no delay, or one that is long enough and has a time
at which it ends. -/
def InMemoryStore.NewJob.placed (queueOpts : QueueOpts) (now : Dt) (item : NewJob D) : Bool :=
  let delay := (item.opts queueOpts).delay
  match delay.nextOccurranceTimestampMs now, delay.asDiffMs now with
  | .ok expected, .ok ms =>
    decide (castUnsigned ms = 0 ∨ minDelayMsLimit ≤ castUnsigned ms ∧ expected.isSome = true)
  | _, _ => false

theorem InMemoryStore.NewJob.placed_eq {queueOpts : QueueOpts} {now : Dt} {item : NewJob D}
    {expected : Option ℤ} {ms : ℤ}
    (hexpected : (item.opts queueOpts).delay.nextOccurranceTimestampMs now = .ok expected)
    (hms : (item.opts queueOpts).delay.asDiffMs now = .ok ms) :
    item.placed queueOpts now = decide (castUnsigned ms = 0 ∨
      minDelayMsLimit ≤ castUnsigned ms ∧ expected.isSome = true) := by
  simp only [NewJob.placed, hexpected, hms]

/-! ### One prepared job -/

section Prepared

variable {T : CaseTable} {pairs : Job D R P → List (String × V)} {queueName : String}
  {eventMode : QueueEventMode} {isPaused : Bool} {id priorCounter : ℕ} {opts : JobOptions}
  {job : Job D R P} {name : String} {now : Dt} {p : Prepared D R P V}

theorem panicked_of_prepareForInsert {e : KioError} (hts : job.ts = now)
    (h : prepareForInsert T pairs queueName eventMode isPaused id priorCounter opts job name now =
      .error e) : ∃ message, e = .panicked message := by
  unfold prepareForInsert at h
  cases he : opts.delay.nextOccurranceTimestampMs now with
  | error e' =>
    simp only [he, Except.error.injEq] at h
    exact h ▸ panicked_of_nextOccurrance he
  | ok expected =>
    cases hd : opts.delay.asDiffMs now with
    | error e' =>
      simp only [he, hd, Except.error.injEq] at h
      exact h ▸ panicked_of_asDiffMs hd
    | ok ms =>
      simp only [he, hd, Job.addOpts_eq (hts ▸ hd)] at h
      split_ifs at h

end Prepared

/-! ### The places of an id -/

namespace RedisStore

/-- How often an id occurs in the four collections of jobs that are to be fetched. -/
def copies (T : CaseTable) (st : RedisStore) (r : Server V M) (id : ℕ) : ℕ :=
  (r.lists (CollectionSuffix.wait.toCollectionName T st.keyPrefix st.name)).count id +
    (r.lists (CollectionSuffix.paused.toCollectionName T st.keyPrefix st.name)).count id +
    ((r.zsets (CollectionSuffix.prioritized.toCollectionName T st.keyPrefix st.name)).map
      Prod.fst).count id +
    ((r.zsets (CollectionSuffix.delayed.toCollectionName T st.keyPrefix st.name)).map
      Prod.fst).count id

/-- The fields of the job are stored under its id, which is in one of the collections. -/
def Stored (T : CaseTable) (pairs : Job D R P → List (String × V)) (st : RedisStore)
    (r : Server V M) (job : Job D R P) : Prop :=
  ∃ id, job.id = some id ∧ st.copies T r id = 1 ∧ r.hashes (st.recordKey T id) = pairs job

theorem count_lpush (f : Key → List ℕ) (key key' : Key) (id i : ℕ) :
    (Function.update f key (id :: f key) key').count i =
      (f key').count i + if key' = key ∧ id = i then 1 else 0 := by
  by_cases hkey : key' = key
  · subst hkey
    simp [List.count_cons]
  · simp [hkey]

theorem count_zadd (f : Key → List (ℕ × ℤ)) (key key' : Key) (id i : ℕ) (score : ℤ)
    (hnew : ((f key).map Prod.fst).count id = 0) :
    ((Function.update f key ((f key).filter (fun e => e.1 ≠ id) ++ [(id, score)]) key').map
      Prod.fst).count i =
        ((f key').map Prod.fst).count i + if key' = key ∧ id = i then 1 else 0 := by
  by_cases hkey : key' = key
  · subst hkey
    have hall : (f key').filter (fun e => e.1 ≠ id) = f key' := by
      rw [List.filter_eq_self]
      intro e he
      refine decide_eq_true ?_
      rintro rfl
      exact List.count_eq_zero.mp hnew (List.mem_map_of_mem he)
    rw [Function.update_self, hall]
    simp [List.count_singleton]
  · simp [hkey]

section Keys

variable (T : CaseTable) (st : RedisStore)

theorem delayedKey_eq (hfixed : T.Fixed st.queueName.toList) :
    delayedKey st.queueName =
      CollectionSuffix.delayed.toCollectionName T st.keyPrefix st.name := by
  rw [CollectionSuffix.toCollectionName_eq, eq_comm]
  exact (T.toLowercase_append_eq_iff _ (by decide)).mpr hfixed

theorem prioritizedKey_eq :
    prioritizedKey T st.queueName =
      CollectionSuffix.prioritized.toCollectionName T st.keyPrefix st.name := by
  rw [CollectionSuffix.toCollectionName_eq]
  rfl

theorem waitingKey_eq (isPaused : Bool) :
    waitingKey T st.queueName isPaused =
      (if isPaused then CollectionSuffix.paused else .wait).toCollectionName T st.keyPrefix
        st.name := by
  rw [CollectionSuffix.toCollectionName_eq]
  rfl

theorem toCollectionName_ne {σ τ : CollectionSuffix} (h : σ ≠ τ) :
    σ.toCollectionName T st.keyPrefix st.name ≠ τ.toCollectionName T st.keyPrefix st.name :=
  fun heq => h (CollectionSuffix.suffix_eq_of_toCollectionName_eq heq)

end Keys

variable {T : CaseTable} {pairs : Job D R P → List (String × V)} {st : RedisStore}
  {queueOpts : QueueOpts} {call : AddCall D}

theorem copies_placeCommands (hfixed : T.Fixed st.queueName.toList)
    {r : Server V (QueueStreamEvent R P)} {id : ℕ} (hnew : st.copies T r id = 0)
    (isPaused : Bool) (priorCounter delay priority : ℕ) (expected : Option ℤ) (state : JobState)
    (i : ℕ) :
    st.copies T (r.execAll (placeCommands T st.queueName isPaused id priorCounter delay priority
        expected state).2) i =
      st.copies T r i + if (delay = 0 ∨ expected.isSome = true) ∧ id = i then 1 else 0 := by
  have hne := st.toCollectionName_ne T (show CollectionSuffix.wait ≠ .paused by decide)
  have hne' := st.toCollectionName_ne T (show CollectionSuffix.prioritized ≠ .delayed by decide)
  unfold copies at hnew ⊢
  have hprioritized : ((r.zsets (CollectionSuffix.prioritized.toCollectionName T st.keyPrefix
      st.name)).map Prod.fst).count id = 0 := by omega
  have hdelayed : ((r.zsets (CollectionSuffix.delayed.toCollectionName T st.keyPrefix
      st.name)).map Prod.fst).count id = 0 := by omega
  unfold placeCommands
  by_cases hdelay : 0 < delay
  · rw [if_pos hdelay]
    cases expected with
    | none => simp [Server.execAll, hdelay.ne']
    | some due =>
      simp only [Server.execAll, List.foldl_cons, List.foldl_nil, Server.exec,
        delayedKey_eq T st hfixed]
      rw [count_zadd _ _ _ _ _ _ hdelayed, count_zadd _ _ _ _ _ _ hdelayed]
      simp [hne', Nat.add_assoc]
  · have hzero : delay = 0 := by omega
    rw [if_neg hdelay]
    by_cases hpriority : 0 < priority
    · simp only [if_pos hpriority, Server.execAll, List.foldl_cons, List.foldl_nil, Server.exec,
        prioritizedKey_eq]
      rw [count_zadd _ _ _ _ _ _ hprioritized, count_zadd _ _ _ _ _ _ hprioritized]
      simp only [hzero, hne'.symm, true_or, true_and, false_and, if_false]
      omega
    · simp only [if_neg hpriority, Server.execAll, List.foldl_cons, List.foldl_nil, Server.exec,
        waitingKey_eq, count_lpush]
      cases isPaused with
      | true =>
        simp only [hzero, hne, if_true, true_or, true_and, false_and, if_false]
        omega
      | false =>
        simp only [hzero, hne.symm, Bool.false_eq_true, true_or, true_and, false_and, if_false]
        omega

section Item

variable {r : Server V (QueueStreamEvent R P)} {item : NewJob D} {eventMode : QueueEventMode}
  {isPaused : Bool} {id priorCounter : ℕ} {job : Job D R P} {name : String} {now : Dt}
  {p : Prepared D R P V}

theorem copies_prepareForInsert (hfixed : T.Fixed st.queueName.toList)
    (hnew : st.copies T r id = 0)
    (hp : prepareForInsert T pairs st.queueName eventMode isPaused id priorCounter
      (item.opts queueOpts) job name now = .ok p) (i : ℕ) :
    st.copies T (r.execAll p.commands) i =
      st.copies T r i + if item.placed queueOpts now = true ∧ id = i then 1 else 0 := by
  obtain ⟨expected, ms, state, hexpected, hms, hcases⟩ := prepareForInsert_cases hp
  have hplaced := NewJob.placed_eq hexpected hms
  split_ifs at hcases with hshort
  · have hfalse : item.placed queueOpts now = false := by
      rw [hplaced, decide_eq_false_iff_not]
      omega
    simp [hcases, hfalse, Server.execAll]
  · have hiff : item.placed queueOpts now = true ↔
        (castUnsigned ms = 0 ∨ expected.isSome = true) := by
      rw [hplaced, decide_eq_true_iff]
      constructor
      · exact Or.imp_right And.right
      · intro hsome
        by_cases hzero : castUnsigned ms = 0
        · exact Or.inl hzero
        · exact Or.inr ⟨by omega, hsome.resolve_left hzero⟩
    have hplace := copies_placeCommands hfixed hnew isPaused priorCounter (castUnsigned ms)
      (item.opts queueOpts).priority expected state i
    simp only [← hiff] at hplace
    rw [hcases.2, Server.execAll_append, ← hplace]
    cases eventMode <;> rfl

theorem record_prepareForInsert (hfixed : T.Fixed st.queueName.toList)
    (hrecord : r.hashes (st.recordKey T id) = [])
    (hp : prepareForInsert T pairs st.queueName eventMode isPaused id priorCounter
      (item.opts queueOpts) job name now = .ok p) (hplaced : item.placed queueOpts now = true) :
    p.job.id = some id ∧ (r.execAll p.commands).hashes (st.recordKey T id) = pairs p.job := by
  obtain ⟨expected, ms, state, hexpected, hms, hcases⟩ := prepareForInsert_cases hp
  rw [NewJob.placed_eq hexpected hms, decide_eq_true_iff] at hplaced
  rw [if_neg (by omega)] at hcases
  have hnonempty : p.commands ≠ [] := by
    rw [hcases.2]
    simp
  have hsame := (st.jobKey_eq_recordKey_iff T id id).mpr ⟨rfl, hfixed⟩
  refine ⟨hcases.1, ?_⟩
  rw [← hsame, JobCodec.hashes_prepareForInsert hp hnonempty, hsame, hrecord]
  rfl

end Item

/-! ### One item -/

section AddItem

variable {r : Server V (QueueStreamEvent R P)} {l m : AddLoop D R P V} {item : NewJob D}

theorem addItem_cases (h : addItem T pairs st queueOpts call l item = .ok m) :
    ∃ p, prepareForInsert T pairs st.queueName call.eventMode call.isPaused l.idCounter l.pcCounter
        (item.opts queueOpts) (Job.new item.1 (some item.2.2) (item.opts queueOpts).id
          (some st.queueName) call.now) item.1 call.now = .ok p ∧
      m.idCounter = l.idCounter + 1 ∧ m.pipeline = l.pipeline ++ p.commands ∧
      m.jobs = l.jobs ++ [{ p.job with id := some l.idCounter }] := by
  unfold addItem at h
  dsimp only at h
  split at h
  · cases h
  · next p hp =>
    obtain rfl := Except.ok.inj h
    exact ⟨p, hp, rfl, rfl, rfl⟩

theorem panicked_of_addItem {e : KioError}
    (h : addItem T pairs st queueOpts call l item = .error e) :
    ∃ message, e = .panicked message := by
  unfold addItem at h
  dsimp only at h
  split at h
  · next hp =>
    obtain rfl := Except.error.inj h
    exact panicked_of_prepareForInsert rfl hp
  · cases h

theorem hashes_addItem_of_ne (h : addItem T pairs st queueOpts call l item = .ok m) {key : Key}
    (hkey : key ≠ jobKey st.queueName l.idCounter) :
    (r.execAll m.pipeline).hashes key = (r.execAll l.pipeline).hashes key := by
  obtain ⟨p, hp, -, hpipeline, -⟩ := addItem_cases h
  rw [hpipeline, Server.execAll_append]
  exact JobCodec.hashes_prepareForInsert_of_ne hp _ hkey

/-- What the item of a batch does to the server and to the list of jobs. -/
structure Added (T : CaseTable) (pairs : Job D R P → List (String × V)) (st : RedisStore)
    (r : Server V (QueueStreamEvent R P)) (placed : Bool) (l m : AddLoop D R P V)
    (job : Job D R P) : Prop where
  jobs : m.jobs = l.jobs ++ [job]
  jobId : job.id = some l.idCounter
  idCounter : m.idCounter = l.idCounter + 1
  copies : ∀ i, st.copies T (r.execAll m.pipeline) i =
    st.copies T (r.execAll l.pipeline) i + if placed = true ∧ l.idCounter = i then 1 else 0
  record : placed = true → (r.execAll m.pipeline).hashes (st.recordKey T l.idCounter) = pairs job
  others : ∀ i, i ≠ l.idCounter → (r.execAll m.pipeline).hashes (st.recordKey T i) =
    (r.execAll l.pipeline).hashes (st.recordKey T i)

theorem added_of_addItem (hfixed : T.Fixed st.queueName.toList)
    (hnew : st.copies T (r.execAll l.pipeline) l.idCounter = 0)
    (hrecord : (r.execAll l.pipeline).hashes (st.recordKey T l.idCounter) = [])
    (h : addItem T pairs st queueOpts call l item = .ok m) :
    ∃ job, Added T pairs st r (item.placed queueOpts call.now) l m job := by
  obtain ⟨p, hp, hcounter, hpipeline, hjobs⟩ := addItem_cases h
  refine ⟨{ p.job with id := some l.idCounter }, hjobs, rfl, hcounter, ?_, ?_, ?_⟩
  · intro i
    rw [hpipeline, Server.execAll_append]
    exact copies_prepareForInsert hfixed hnew hp i
  · intro hplaced
    obtain ⟨hid, hhash⟩ := record_prepareForInsert hfixed hrecord hp hplaced
    have hself : ({ p.job with id := some l.idCounter } : Job D R P) = p.job := by
      rw [← hid]
    rw [hpipeline, Server.execAll_append, hself]
    exact hhash
  · intro i hi
    refine hashes_addItem_of_ne h fun heq => hi ?_
    exact (((st.jobKey_eq_recordKey_iff T _ _).mp heq.symm).1).symm

end AddItem

/-! ### The loop -/

/-- The ids that are still to be given out are not in use, and those of the jobs so far have been
given out. -/
structure Ready (T : CaseTable) (st : RedisStore) (r : Server V (QueueStreamEvent R P))
    (l : AddLoop D R P V) : Prop where
  fresh : ∀ i, l.idCounter ≤ i → st.copies T (r.execAll l.pipeline) i = 0 ∧
    (r.execAll l.pipeline).hashes (st.recordKey T i) = []
  issued : ∀ job ∈ l.jobs, ∃ id < l.idCounter, job.id = some id

def AllStored (T : CaseTable) (pairs : Job D R P → List (String × V)) (st : RedisStore)
    (r : Server V (QueueStreamEvent R P)) (l : AddLoop D R P V) : Prop :=
  ∀ job ∈ l.jobs, st.Stored T pairs (r.execAll l.pipeline) job

theorem Ready.added {r : Server V (QueueStreamEvent R P)} {placed : Bool} {l m : AddLoop D R P V}
    {job : Job D R P} (h : Ready T st r l) (hadd : Added T pairs st r placed l m job) :
    Ready T st r m := by
  constructor
  · intro i hi
    rw [hadd.idCounter] at hi
    obtain ⟨hcopies, hhash⟩ := h.fresh i (by omega)
    have hother : ¬ (placed = true ∧ l.idCounter = i) := by omega
    exact ⟨by rw [hadd.copies, if_neg hother, hcopies],
      (hadd.others i (by omega)).trans hhash⟩
  · intro job' hjob'
    rw [hadd.jobs] at hjob'
    rw [hadd.idCounter]
    rcases List.mem_append.mp hjob' with hjob' | hjob'
    · obtain ⟨id, hid, heq⟩ := h.issued job' hjob'
      exact ⟨id, by omega, heq⟩
    · obtain rfl := List.mem_singleton.mp hjob'
      exact ⟨l.idCounter, by omega, hadd.jobId⟩

theorem allStored_added {r : Server V (QueueStreamEvent R P)} {placed : Bool}
    {l m : AddLoop D R P V} {job : Job D R P} (h : Ready T st r l)
    (hadd : Added T pairs st r placed l m job) :
    AllStored T pairs st r m ↔ AllStored T pairs st r l ∧ placed = true := by
  have hbefore : ∀ job ∈ l.jobs, st.Stored T pairs (r.execAll m.pipeline) job ↔
      st.Stored T pairs (r.execAll l.pipeline) job := by
    intro job' hjob'
    obtain ⟨id, hid, heq⟩ := h.issued job' hjob'
    have hother : ¬ (placed = true ∧ l.idCounter = id) := by omega
    have hcopies := hadd.copies id
    rw [if_neg hother, Nat.add_zero] at hcopies
    simp only [Stored, heq, Option.some.injEq, exists_eq_left', hcopies,
      hadd.others id (by omega)]
  have hself : st.Stored T pairs (r.execAll m.pipeline) job ↔ placed = true := by
    have hcopies := hadd.copies l.idCounter
    rw [(h.fresh _ le_rfl).1] at hcopies
    simp only [Stored, hadd.jobId, Option.some.injEq, exists_eq_left', hcopies]
    cases placed with
    | false => simp
    | true => simpa using hadd.record rfl
  unfold AllStored
  rw [hadd.jobs, List.forall_mem_append, List.forall_mem_singleton, hself]
  exact and_congr_left' (forall₂_congr hbefore)

theorem allStored_addLoop (hfixed : T.Fixed st.queueName.toList)
    {r : Server V (QueueStreamEvent R P)} {items : List (NewJob D)} {l m : AddLoop D R P V}
    (hready : Ready T st r l) (h : addLoop T pairs st queueOpts call items l = .ok m) :
    AllStored T pairs st r m ↔
      AllStored T pairs st r l ∧ ∀ item ∈ items, item.placed queueOpts call.now = true := by
  induction items generalizing l with
  | nil =>
    obtain rfl := Except.ok.inj h
    simp
  | cons item items ih =>
    simp only [addLoop] at h
    split at h
    · cases h
    · next k hk =>
      obtain ⟨hnew, hrecord⟩ := hready.fresh l.idCounter le_rfl
      obtain ⟨job, hadd⟩ := added_of_addItem hfixed hnew hrecord hk
      rw [ih (hready.added hadd) h, allStored_added hready hadd, List.forall_mem_cons, and_assoc]

/-- In a queue with another name no record is written where readers look for it. -/
theorem hashes_addLoop_of_not_fixed (hfixed : ¬ T.Fixed st.queueName.toList)
    {r : Server V (QueueStreamEvent R P)} {items : List (NewJob D)} {l m : AddLoop D R P V}
    (h : addLoop T pairs st queueOpts call items l = .ok m) (id : ℕ) :
    (r.execAll m.pipeline).hashes (st.recordKey T id) =
      (r.execAll l.pipeline).hashes (st.recordKey T id) := by
  induction items generalizing l with
  | nil =>
    obtain rfl := Except.ok.inj h
    rfl
  | cons item items ih =>
    simp only [addLoop] at h
    split at h
    · cases h
    · next k hk =>
      refine (ih h).trans (hashes_addItem_of_ne hk fun heq => ?_)
      exact hfixed ((st.jobKey_eq_recordKey_iff T _ _).mp heq.symm).2

theorem panicked_of_addLoop {items : List (NewJob D)} {l : AddLoop D R P V} {e : KioError}
    (h : addLoop T pairs st queueOpts call items l = .error e) :
    ∃ message, e = .panicked message := by
  induction items generalizing l with
  | nil => cases h
  | cons item items ih =>
    simp only [addLoop] at h
    split at h
    · next e' hitem =>
      obtain rfl := Except.error.inj h
      exact panicked_of_addItem hitem
    · exact ih h

/-! ### The whole call -/

theorem stored_finalPipeline (r : Server V (QueueStreamEvent R P)) (l : AddLoop D R P V)
    (job : Job D R P) :
    st.Stored T pairs (r.execAll (st.finalPipeline T l)) job ↔
      st.Stored T pairs (r.execAll l.pipeline) job := by
  rw [finalPipeline, Server.execAll_append]
  cases l.toPriorize <;> rfl

/-- The ids above the counter are not in use. -/
def FreshIds (T : CaseTable) (st : RedisStore) (r : Server V M) : Prop :=
  ∀ i, (r.get (st.idKey T)).getD 0 < i →
    st.copies T r i = 0 ∧ r.hashes (st.recordKey T i) = []

/-- Every job that is returned is stored, and a batch with a delay that is too short makes the
call return an error. -/
structure ReportsStored (T : CaseTable) (pairs : Job D R P → List (String × V)) (st : RedisStore)
    (queueOpts : QueueOpts) (r : Server V (QueueStreamEvent R P)) (call : AddCall D) : Prop where
  stored : ∀ jobs, (st.add T pairs queueOpts r call).1 = .ok jobs →
    ∀ job ∈ jobs, st.Stored T pairs (st.add T pairs queueOpts r call).2 job
  refused : (∃ item ∈ call.items, item.refused queueOpts call.now = true) →
    ReturnsErr (st.add T pairs queueOpts r call).1

theorem not_returnsErr_add (r : Server V (QueueStreamEvent R P)) :
    ¬ ReturnsErr (st.add T pairs queueOpts r call).1 := by
  rintro ⟨e, he, hpanic⟩
  unfold add at he
  split at he
  · next e' hjobs =>
    obtain rfl := Except.error.inj he
    obtain ⟨message, hmessage⟩ := panicked_of_addLoop hjobs
    exact hpanic message hmessage
  · cases he

theorem FreshIds.ready {r : Server V (QueueStreamEvent R P)} (h : st.FreshIds T r) :
    Ready T st r (⟨(r.get (st.idKey T)).getD 0 + 1, (r.get (st.pcKey T)).getD 0 + 1, false, [],
      []⟩ : AddLoop D R P V) :=
  ⟨fun i hi => h i hi, by simp⟩

theorem allStored_of_fixed (hfixed : T.Fixed st.queueName.toList)
    {r : Server V (QueueStreamEvent R P)} (hfresh : st.FreshIds T r) {l : AddLoop D R P V}
    (h : st.addJobs T pairs queueOpts r call = .ok l) :
    AllStored T pairs st r l ↔
      ∀ item ∈ call.items, item.placed queueOpts call.now = true := by
  rw [allStored_addLoop hfixed hfresh.ready h]
  exact and_iff_right fun job hjob => absurd hjob List.not_mem_nil

theorem allStored_of_not_fixed (hpairs : ∀ job, pairs job ≠ [])
    (hfixed : ¬ T.Fixed st.queueName.toList) {r : Server V (QueueStreamEvent R P)}
    (hfresh : st.FreshIds T r) {l : AddLoop D R P V}
    (h : st.addJobs T pairs queueOpts r call = .ok l) :
    AllStored T pairs st r l ↔ call.items = [] := by
  have hids : l.jobs.map Job.id =
      (List.range' ((r.get (st.idKey T)).getD 0 + 1) call.items.length).map some :=
    (addLoop_spec h).ids
  have hlength : l.jobs.length = call.items.length := by
    simpa using congrArg List.length hids
  constructor
  · intro hstored
    rw [← List.length_eq_zero_iff, ← hlength, List.length_eq_zero_iff,
      List.eq_nil_iff_forall_not_mem]
    intro job hjob
    obtain ⟨id, hid, -, hhash⟩ := hstored job hjob
    have hnew : (r.get (st.idKey T)).getD 0 < id := by
      have hmem : some id ∈ l.jobs.map Job.id := hid ▸ List.mem_map_of_mem hjob
      rw [hids] at hmem
      simp only [List.mem_map, List.mem_range'_1, Option.some.injEq, exists_eq_right] at hmem
      omega
    rw [hashes_addLoop_of_not_fixed hfixed h id] at hhash
    exact hpairs job (hhash.symm.trans (hfresh id hnew).2)
  · intro hnil job hjob
    rw [hnil, List.length_nil, List.length_eq_zero_iff] at hlength
    simp [hlength] at hjob

/-- What is returned is stored just if the call panics, or there is nothing to add, or the name
is not changed by lowercasing and every job was put in a collection. -/
theorem stored_add_iff (hpairs : ∀ job, pairs job ≠ []) {r : Server V (QueueStreamEvent R P)}
    (hreturn : call.returnJobs = true) (hfresh : st.FreshIds T r) :
    (∀ jobs, (st.add T pairs queueOpts r call).1 = .ok jobs →
        ∀ job ∈ jobs, st.Stored T pairs (st.add T pairs queueOpts r call).2 job) ↔
      call.computable queueOpts = false ∨ call.items = [] ∨ T.Fixed st.queueName.toList ∧
        ∀ item ∈ call.items, item.placed queueOpts call.now = true := by
  have hok := st.isOk_addJobs T pairs queueOpts r call
  unfold add
  cases hjobs : st.addJobs T pairs queueOpts r call with
  | error e =>
    rw [hjobs] at hok
    have hpanic : call.computable queueOpts = false := hok.symm
    simp [hpanic]
  | ok l =>
    rw [hjobs] at hok
    have hcomputable : call.computable queueOpts = true := hok.symm
    simp only [hreturn, if_true, Except.ok.injEq, forall_eq', stored_finalPipeline, hcomputable,
      Bool.true_eq_false, false_or]
    change AllStored T pairs st r l ↔ _
    by_cases hfixed : T.Fixed st.queueName.toList
    · rw [allStored_of_fixed hfixed hfresh hjobs]
      simp only [hfixed, true_and]
      constructor
      · exact Or.inr
      · rintro (hnil | hitems)
        · simp [hnil]
        · exact hitems
    · rw [allStored_of_not_fixed hpairs hfixed hfresh hjobs]
      simp [hfixed]

/-- `add` reports only what it stores just if no delay is too short, and what is returned is
stored. -/
theorem reportsStored_iff (T : CaseTable) (pairs : Job D R P → List (String × V))
    (hpairs : ∀ job, pairs job ≠ []) (st : RedisStore) (queueOpts : QueueOpts)
    (r : Server V (QueueStreamEvent R P)) (call : AddCall D) (hreturn : call.returnJobs = true)
    (hfresh : st.FreshIds T r) :
    st.ReportsStored T pairs queueOpts r call ↔
      (∀ item ∈ call.items, item.refused queueOpts call.now = false) ∧
        (call.computable queueOpts = false ∨ call.items = [] ∨ T.Fixed st.queueName.toList ∧
          ∀ item ∈ call.items, item.placed queueOpts call.now = true) := by
  constructor
  · rintro ⟨hstored, hrefused⟩
    refine ⟨fun item hitem => ?_, (stored_add_iff hpairs hreturn hfresh).mp hstored⟩
    rw [← Bool.not_eq_true]
    exact fun h => not_returnsErr_add r (hrefused ⟨item, hitem, h⟩)
  · rintro ⟨hnone, hstored⟩
    refine ⟨(stored_add_iff hpairs hreturn hfresh).mpr hstored, ?_⟩
    rintro ⟨item, hitem, h⟩
    exact absurd h (by simp [hnone item hitem])

theorem freshIds_empty (T : CaseTable) (st : RedisStore) :
    st.FreshIds T (Server.empty : Server V M) :=
  fun _ _ => ⟨rfl, rfl⟩

def threeKinds : AddCall ℕ :=
  ⟨[("a", none, 1), ("b", some { priority := 5 }, 2), ("c", some { delay := .timeMilis 500 }, 3)],
    .pubSub, false, true, 0⟩

theorem threeKinds_reported :
    mailStore.ReportsStored .ascii namePairs {} Server.empty threeKinds :=
  (reportsStored_iff .ascii namePairs (by simp [namePairs]) mailStore {} Server.empty threeKinds rfl
    (freshIds_empty .ascii mailStore)).mpr (by decide +kernel)

def tooShort : AddCall ℕ := ⟨[("a", some { delay := .timeMilis 10 }, 1)], .pubSub, false, true, 0⟩

/-- The job is returned with its id. It has no record and is in no collection. -/
theorem tooShort_reported_not_stored :
    let out := mailStore.add .ascii namePairs {} Server.empty tooShort
    (out.1.toOption.map fun jobs => jobs.map fun job => (job.name, job.id)) = some [("a", some 1)] ∧
      mailStore.copies .ascii out.2 1 = 0 ∧ out.2.hashes (mailStore.recordKey .ascii 1) = [] ∧
      ¬ mailStore.ReportsStored .ascii namePairs {} Server.empty tooShort := by
  refine ⟨by decide +kernel, by decide +kernel, by decide +kernel, fun h => ?_⟩
  exact not_returnsErr_add _ (h.refused ⟨_, List.mem_singleton_self _, by decide +kernel⟩)

end RedisStore

end Kiomq
