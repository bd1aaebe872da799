import Kiomq.Foundations.Lowercase
import Kiomq.Redis.Server
import Kiomq.Stores.Insertion

/-!
# Adding jobs to the Redis store

`add` reads the two counters, lets `prepare_for_insert` queue the commands of every job
in one pipeline, and sends the pipeline together with the increments of the counters.
The JSON codec of a record is the parameter `pairs`, the tables behind `to_lowercase`
are the parameter `T`. The connection does not fail; the pipeline is cut into chunks
that are sent in order.
-/

namespace Kiomq

open Foundations Redis InMemoryStore

/-- The text of a suffix, as `Display` derives it. -/
def CollectionSuffix.display : CollectionSuffix → List Char
  | .active => "Active".toList
  | .completed => "Completed".toList
  | .delayed => "Delayed".toList
  | .stalled => "Stalled".toList
  | .prioritized => "Prioritized".toList
  | .priorityCounter => "PriorityCounter".toList
  | .id => "Id".toList
  | .metaKey => "Meta".toList
  | .events => "Events".toList
  | .wait => "Wait".toList
  | .paused => "Paused".toList
  | .failed => "Failed".toList
  | .marker => "Marker".toList
  | .job n => Nat.toDigits 10 n
  | .prefixKey => []
  | .lock n => Nat.toDigits 10 n ++ ":lock".toList
  | .stalledCheck => "stalled_check".toList
  | .workerMetrics => "worker_metrics".toList
  | .processMetrics => "process_metrics".toList

/-- The key that readers use for a collection. -/
def CollectionSuffix.toCollectionName (T : CaseTable) (suffix : CollectionSuffix)
    (keyPrefix name : String) : Key :=
  T.toLowercase (keyPrefix.toList ++ ':' :: (name.toList ++ ':' :: suffix.display))

theorem CollectionSuffix.toCollectionName_eq (T : CaseTable) (suffix : CollectionSuffix)
    (keyPrefix name : String) :
    suffix.toCollectionName T keyPrefix name =
      T.toLowercase ((keyPrefix ++ ":" ++ name).toList ++ ':' :: suffix.display) := by
  simp [toCollectionName]

/-! ### The keys that `prepare_for_insert` writes to -/

def jobKey (queueName : String) (id : ℕ) : Key :=
  queueName.toList ++ ':' :: Nat.toDigits 10 id

def eventsKeys (queueName : String) : Key := queueName.toList ++ ":events".toList

def delayedKey (queueName : String) : Key := queueName.toList ++ ":delayed".toList

def waitingKey (T : CaseTable) (queueName : String) (isPaused : Bool) : Key :=
  let waitingOrPaused := if isPaused then CollectionSuffix.paused else .wait
  T.toLowercase (queueName.toList ++ ':' :: waitingOrPaused.display)

def prioritizedKey (T : CaseTable) (queueName : String) : Key :=
  T.toLowercase (queueName.toList ++ ':' :: CollectionSuffix.prioritized.display)

variable {D R P V : Type}

/-- What is left of a call of `prepare_for_insert`: the job, the queued commands and the
answer, which `add` ignores. -/
structure Prepared (D R P V : Type) where
  job : Job D R P
  commands : List (Cmd V (QueueStreamEvent R P))
  answer : KioResult Unit

/-- The lowercase text of the three states that a new job can have. -/
def eventText : JobState → String
  | .delayed => "delayed"
  | .prioritized => "prioritized"
  | _ => "wait"

/-- The command that reports a new job. A job that is put in the paused list is reported
as waiting. -/
def reportCommand (queueName : String) (eventMode : QueueEventMode) (id : ℕ) (name : String)
    (delay priority : ℕ) : Cmd V (QueueStreamEvent R P) :=
  let toDelay := 0 < delay
  let toPriorize := 0 < priority ∧ ¬ toDelay
  let event := if toDelay then JobState.delayed else if toPriorize then .prioritized else .wait
  match eventMode with
  | .pubSub =>
    .publish (eventsKeys queueName)
      { jobId := id
        event
        name := some name
        delay := if toDelay then some delay else none
        priority := if toPriorize then some priority else none }
  | .stream =>
    .xadd (eventsKeys queueName)
      ([("event", eventText event), ("job_id", toString id), ("name", name)] ++
        (if toDelay then [("delay", toString delay)] else []) ++
        if toPriorize then [("priority", toString priority)] else [])

/-- The collection that a new job is put in, with the state that its record gets. -/
def placeCommands (T : CaseTable) (queueName : String) (isPaused : Bool) (id priorCounter : ℕ)
    (delay priority : ℕ) (expected : Option ℤ) (state : JobState) :
    JobState × List (Cmd V (QueueStreamEvent R P)) :=
  if 0 < delay then
    match expected with
    | some activeTime => (.delayed, [.zadd (delayedKey queueName) id activeTime])
    | none => (state, [])
  else if 0 < priority then
    let score := calculateNextPriorityScore priority priorCounter
    (.prioritized, [.zadd (prioritizedKey T queueName) id score])
  else (state, [.lpush (waitingKey T queueName isPaused) id])

/-- A delay that is too short leaves the job with its options and without commands. An
error outside of `Prepared` is a panic. -/
def prepareForInsert (T : CaseTable) (pairs : Job D R P → List (String × V)) (queueName : String)
    (eventMode : QueueEventMode) (isPaused : Bool) (id priorCounter : ℕ) (opts : JobOptions)
    (job : Job D R P) (name : String) (now : Dt) : KioResult (Prepared D R P V) :=
  match opts.delay.nextOccurranceTimestampMs now with
  | .error e => .error e
  | .ok expected =>
    match opts.delay.asDiffMs now with
    | .error e => .error e
    | .ok ms =>
      match job.addOpts opts with
      | .error e => .error e
      | .ok job =>
        let delay := castUnsigned ms
        if 0 < delay ∧ delay < minDelayMsLimit then
          .ok ⟨job, [], .error (.delayBelowAllowedLimit minDelayMsLimit delay)⟩
        else
          let placed := placeCommands T queueName isPaused id priorCounter delay opts.priority
            expected job.state
          let job := { job with state := placed.1, id := some id }
          .ok ⟨job, placed.2 ++ [.hsetMultiple (jobKey queueName id) (pairs job),
            reportCommand queueName eventMode id name delay opts.priority], .ok ()⟩

theorem prepareForInsert_cases {T : CaseTable} {pairs : Job D R P → List (String × V)}
    {queueName : String} {eventMode : QueueEventMode} {isPaused : Bool} {id priorCounter : ℕ}
    {opts : JobOptions} {job : Job D R P} {name : String} {now : Dt} {p : Prepared D R P V}
    (h : prepareForInsert T pairs queueName eventMode isPaused id priorCounter opts job name now =
      .ok p) :
    ∃ expected ms state, opts.delay.nextOccurranceTimestampMs now = .ok expected ∧
      opts.delay.asDiffMs now = .ok ms ∧
      if 0 < castUnsigned ms ∧ castUnsigned ms < minDelayMsLimit then p.commands = []
      else p.job.id = some id ∧ p.commands =
        (placeCommands T queueName isPaused id priorCounter (castUnsigned ms) opts.priority expected
          state).2 ++
          [.hsetMultiple (jobKey queueName id) (pairs p.job),
            reportCommand queueName eventMode id name (castUnsigned ms) opts.priority] := by
  unfold prepareForInsert at h
  cases he : opts.delay.nextOccurranceTimestampMs now with
  | error e => simp [he] at h
  | ok expected =>
    cases hd : opts.delay.asDiffMs now with
    | error e => simp [he, hd] at h
    | ok ms =>
      cases hj : job.addOpts opts with
      | error e => simp [he, hd, hj] at h
      | ok job' =>
        refine ⟨expected, ms, job'.state, rfl, rfl, ?_⟩
        simp only [he, hd, hj] at h
        split_ifs at h ⊢
        · obtain rfl := Except.ok.inj h
          rfl
        · obtain rfl := Except.ok.inj h
          exact ⟨rfl, rfl⟩

theorem prepareForInsert_commands {T : CaseTable} {pairs : Job D R P → List (String × V)}
    {queueName : String} {eventMode : QueueEventMode} {isPaused : Bool} {id priorCounter : ℕ}
    {opts : JobOptions} {job : Job D R P} {name : String} {now : Dt} {p : Prepared D R P V}
    (h : prepareForInsert T pairs queueName eventMode isPaused id priorCounter opts job name now =
      .ok p) :
    p.commands = [] ∨ ∃ delay expected state, p.commands =
      (placeCommands T queueName isPaused id priorCounter delay opts.priority expected state).2 ++
        [.hsetMultiple (jobKey queueName id) (pairs p.job),
          reportCommand queueName eventMode id name delay opts.priority] := by
  obtain ⟨expected, ms, state, -, -, hcases⟩ := prepareForInsert_cases h
  split_ifs at hcases
  · exact Or.inl hcases
  · exact Or.inr ⟨castUnsigned ms, expected, state, hcases.2⟩

theorem mem_commands_cases {T : CaseTable} {pairs : Job D R P → List (String × V)}
    {queueName : String} {eventMode : QueueEventMode} {isPaused : Bool} {id priorCounter : ℕ}
    {opts : JobOptions} {job : Job D R P} {name : String} {now : Dt} {p : Prepared D R P V}
    (h : prepareForInsert T pairs queueName eventMode isPaused id priorCounter opts job name now =
      .ok p) {c : Cmd V (QueueStreamEvent R P)} (hc : c ∈ p.commands) :
    (∃ due, c = .zadd (delayedKey queueName) id due) ∨
      (∃ score, c = .zadd (prioritizedKey T queueName) id score) ∨
      c = .lpush (waitingKey T queueName isPaused) id ∨
      c = .hsetMultiple (jobKey queueName id) (pairs p.job) ∨
      ∃ delay, c = reportCommand queueName eventMode id name delay opts.priority := by
  rcases prepareForInsert_commands h with hnil | ⟨delay, expected, state, hcmds⟩
  · simp [hnil] at hc
  · rw [hcmds] at hc
    rcases List.mem_append.mp hc with hc | hc
    · unfold placeCommands at hc
      split_ifs at hc
      · cases expected with
        | none => simp at hc
        | some due => exact Or.inl ⟨due, List.mem_singleton.mp hc⟩
      · exact Or.inr (Or.inl ⟨_, List.mem_singleton.mp hc⟩)
      · exact Or.inr (Or.inr (Or.inl (List.mem_singleton.mp hc)))
    · rcases List.mem_cons.mp hc with hc | hc
      · exact Or.inr (Or.inr (Or.inr (Or.inl hc)))
      · exact Or.inr (Or.inr (Or.inr (Or.inr ⟨delay, List.mem_singleton.mp hc⟩)))

/-- Both times that an insertion takes from the delay can be computed. -/
def JobDelay.computable (delay : JobDelay) (now : Dt) : Bool :=
  (delay.nextOccurranceTimestampMs now).isOk && (delay.asDiffMs now).isOk

/-- A job that was just created is prepared without a panic just if its delay can be
computed. -/
theorem isOk_prepareForInsert (T : CaseTable) (pairs : Job D R P → List (String × V))
    (queueName : String) (eventMode : QueueEventMode) (isPaused : Bool) (id priorCounter : ℕ)
    (opts : JobOptions) (job : Job D R P) (name : String) (now : Dt) (hts : job.ts = now) :
    (prepareForInsert T pairs queueName eventMode isPaused id priorCounter opts job name now).isOk =
      opts.delay.computable now := by
  unfold prepareForInsert JobDelay.computable
  cases he : opts.delay.nextOccurranceTimestampMs now with
  | error e => rfl
  | ok expected =>
    cases hd : opts.delay.asDiffMs now with
    | error e => rfl
    | ok ms =>
      simp only [Job.addOpts_eq (hts ▸ hd)]
      split_ifs <;> rfl

structure RedisStore where
  keyPrefix : String
  name : String

structure AddCall (D : Type) where
  items : List (NewJob D)
  eventMode : QueueEventMode
  isPaused : Bool
  returnJobs : Bool
  now : Dt

def AddCall.computable {D : Type} (queueOpts : QueueOpts) (call : AddCall D) : Bool :=
  call.items.all fun item => (NewJob.opts queueOpts item).delay.computable call.now

structure AddLoop (D R P V : Type) where
  idCounter : ℕ
  pcCounter : ℕ
  toPriorize : Bool
  pipeline : List (Cmd V (QueueStreamEvent R P))
  jobs : List (Job D R P)

namespace RedisStore

/-- `RedisStore::new` takes both texts as they are. -/
def new (keyPrefix : Option String) (name : String) : RedisStore :=
  ⟨keyPrefix.getD "\x7bkio\x7d", name⟩

def queueName (st : RedisStore) : String := st.keyPrefix ++ ":" ++ st.name

def idKey (T : CaseTable) (st : RedisStore) : Key :=
  CollectionSuffix.id.toCollectionName T st.keyPrefix st.name

def pcKey (T : CaseTable) (st : RedisStore) : Key :=
  CollectionSuffix.priorityCounter.toCollectionName T st.keyPrefix st.name

/-- One item. The numbers are those before the local counters are advanced. -/
def addItem (T : CaseTable) (pairs : Job D R P → List (String × V)) (st : RedisStore)
    (queueOpts : QueueOpts) (call : AddCall D) (l : AddLoop D R P V) (item : NewJob D) :
    KioResult (AddLoop D R P V) :=
  let opts := NewJob.opts queueOpts item
  let job := Job.new item.1 (some item.2.2) opts.id (some st.queueName) call.now
  match prepareForInsert T pairs st.queueName call.eventMode call.isPaused l.idCounter l.pcCounter
      opts job item.1 call.now with
  | .error e => .error e
  | .ok p =>
    .ok
      { idCounter := l.idCounter + 1
        pcCounter := if 0 < opts.priority then l.pcCounter + 1 else l.pcCounter
        toPriorize := l.toPriorize || decide (0 < opts.priority)
        pipeline := l.pipeline ++ p.commands
        jobs := l.jobs ++ [{ p.job with id := some l.idCounter }] }

def addLoop (T : CaseTable) (pairs : Job D R P → List (String × V)) (st : RedisStore)
    (queueOpts : QueueOpts) (call : AddCall D) :
    List (NewJob D) → AddLoop D R P V → KioResult (AddLoop D R P V)
  | [], l => .ok l
  | item :: items, l =>
    match addItem T pairs st queueOpts call l item with
    | .error e => .error e
    | .ok l => addLoop T pairs st queueOpts call items l

/-- The loop, started from the two counters of the server. -/
def addJobs (T : CaseTable) (pairs : Job D R P → List (String × V)) (st : RedisStore)
    (queueOpts : QueueOpts) (r : Server V (QueueStreamEvent R P)) (call : AddCall D) :
    KioResult (AddLoop D R P V) :=
  let id := (r.get (st.idKey T)).getD 0
  let priorCounter := (r.get (st.pcKey T)).getD 0
  addLoop T pairs st queueOpts call call.items ⟨id + 1, priorCounter + 1, false, [], []⟩

theorem isOk_addItem (T : CaseTable) (pairs : Job D R P → List (String × V)) (st : RedisStore)
    (queueOpts : QueueOpts) (call : AddCall D) (l : AddLoop D R P V) (item : NewJob D) :
    (addItem T pairs st queueOpts call l item).isOk =
      (NewJob.opts queueOpts item).delay.computable call.now := by
  have hprepare := isOk_prepareForInsert T pairs st.queueName call.eventMode call.isPaused
    l.idCounter l.pcCounter (NewJob.opts queueOpts item) (Job.new item.1 (some item.2.2)
      (NewJob.opts queueOpts item).id (some st.queueName) call.now) item.1 call.now rfl
  rw [← hprepare]
  simp only [addItem]
  split <;> rename_i hp <;> rw [hp] <;> rfl

theorem isOk_addLoop (T : CaseTable) (pairs : Job D R P → List (String × V)) (st : RedisStore)
    (queueOpts : QueueOpts) (call : AddCall D) (items : List (NewJob D)) (l : AddLoop D R P V) :
    (addLoop T pairs st queueOpts call items l).isOk =
      items.all fun item => (NewJob.opts queueOpts item).delay.computable call.now := by
  induction items generalizing l with
  | nil => rfl
  | cons item items ih =>
    rw [List.all_cons, ← isOk_addItem T pairs st queueOpts call l item, addLoop]
    cases addItem T pairs st queueOpts call l item with
    | error e => rfl
    | ok m => exact ih m

theorem isOk_addJobs (T : CaseTable) (pairs : Job D R P → List (String × V)) (st : RedisStore)
    (queueOpts : QueueOpts) (r : Server V (QueueStreamEvent R P)) (call : AddCall D) :
    (st.addJobs T pairs queueOpts r call).isOk = call.computable queueOpts :=
  isOk_addLoop T pairs st queueOpts call call.items _

/-- The pipeline that is sent: the increments are by the values of the local counters. -/
def finalPipeline (T : CaseTable) (st : RedisStore) (l : AddLoop D R P V) :
    List (Cmd V (QueueStreamEvent R P)) :=
  l.pipeline ++ (.incr (st.idKey T) (l.idCounter - 1) ::
    if l.toPriorize then [.incr (st.pcKey T) (l.pcCounter - 1)] else [])

def add (T : CaseTable) (pairs : Job D R P → List (String × V)) (st : RedisStore)
    (queueOpts : QueueOpts) (r : Server V (QueueStreamEvent R P)) (call : AddCall D) :
    KioResult (List (Job D R P)) × Server V (QueueStreamEvent R P) :=
  match st.addJobs T pairs queueOpts r call with
  | .error e => (.error e, r)
  | .ok l => (.ok (if call.returnJobs then l.jobs else []), r.execAll (st.finalPipeline T l))

end RedisStore

end Kiomq
