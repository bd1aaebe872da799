import Kiomq.Redis.Simulation

/-!
# The first batch of a queue

The Redis store collects the commands of all jobs of a batch and sends them at once, with
increments of the counters by their local values. In memory the jobs are added one by one.
A batch that is accepted, and that finds the counter of the ids at zero, leaves the two
stores mirrors of each other. With any other value the increment is too large.
-/

namespace Kiomq

open Foundations Redis InMemoryStore RecordRun

variable {D R P : Type}

/-- A new queue: there is nothing under its keys but the metadata, and nothing on its
channel. -/
theorem mirrors_new {T : CaseTable} {st : RedisStore} {codec : JobCodec D R P}
    {db : Keyspace (QueueStreamEvent R P)} (keyPrefix : Option String) (name : String) (now : ℕ)
    (hslots : ∀ suffix, suffix ≠ .metaKey → db.slot (st.key T suffix) = {})
    (hmeta : db.slot (st.metaKey T) = { hash := [("event_mode", QueueEventMode.pubSub.text)] })
    (hpublished : db.published = []) :
    Mirrors T st codec now (InMemoryStore.new keyPrefix name) db := by
  have hempty : HoldsScored [] .empty := ⟨List.Perm.refl _, List.nodup_nil⟩
  refine ⟨fun suffix => ?_, ?_, rfl⟩
  · cases suffix with
    | metaKey =>
      refine ⟨_, hmeta, ?_⟩
      exact ⟨rfl, Nat.two_pow_pos 63, rfl, rfl⟩
    | wait | active | paused => exact hslots _ (by simp)
    | completed | failed | prioritized | delayed => exact ⟨[], hslots _ (by simp), hempty⟩
    | stalled => exact ⟨[], hslots _ (by simp), List.Perm.refl _⟩
    | job id => exact ⟨[], hslots _ (by simp), rfl⟩
    | lock id | stalledCheck =>
      refine ⟨none, none, hslots _ (by simp), fun t _ => ?_⟩
      rw [hslots _ (by simp)]
      exact Option.Rel.none
    | id => exact ⟨none, hslots _ (by simp), rfl⟩
    | _ => trivial
  · rw [hpublished]
    rfl

namespace InMemoryStore

/-- The checks of one item of a batch. -/
def admission (s : InMemoryStore D R P) (item : NewJob D) (queueOpts : QueueOpts) (now : Dt) :
    KioResult (Admission D R P) :=
  let opts := NewJob.opts queueOpts item
  checkOptions (Job.new item.1 (some item.2.2) opts.id (some (s.keyPrefix ++ ":" ++ s.name)) now)
    opts now

/-- A job that both stores take in the same way: it is accepted, its record is new and can be
read back, and its score is free. -/
structure Acceptable (codec : JobCodec D R P) (s : InMemoryStore D R P) (item : NewJob D)
    (queueOpts : QueueOpts) (now : Dt) (a : Admission D R P) : Prop where
  accepted : s.admission item queueOpts now = .ok a
  fresh : s.getJob (s.idCounter + 1) = none
  fits : ({ a.job with id := some (s.idCounter + 1) } : Job D R P).Fits codec
  delayed : 0 < a.delay → AdmitsScore s.delayed (s.idCounter + 1) a.expected
  prioritized : ¬ 0 < a.delay → 0 < a.job.opts.priority →
    AdmitsScore s.prioritized (s.idCounter + 1)
      (some (castSigned (calculateNextPriorityScore a.job.opts.priority (s.priorityCounter + 1))))

/-- Every job of a batch is acceptable after those before it. -/
def AcceptableBatch (codec : JobCodec D R P) (queueOpts : QueueOpts) (clock : Clock) :
    InMemoryStore D R P → List (NewJob D) → Prop
  | _, [] => True
  | s, item :: items =>
    (∃ a, s.Acceptable codec item queueOpts clock.utc a) ∧
      AcceptableBatch codec queueOpts clock (s.addOne item queueOpts false clock).2 items

/-- What the place of a job leaves as it is. -/
structure SameHeader (s t : InMemoryStore D R P) : Prop where
  jobs : t.jobs = s.jobs
  name : t.keyPrefix ++ ":" ++ t.name = s.keyPrefix ++ ":" ++ s.name
  idCounter : t.idCounter = s.idCounter
  priorityCounter : t.priorityCounter = s.priorityCounter

theorem sameHeader_place (s : InMemoryStore D R P) (a : Admission D R P) (pc id : ℕ)
    (isPaused : Bool) : SameHeader s (s.place a pc id isPaused).2 := by
  unfold place
  by_cases hdelay : 0 < a.delay
  · simp only [if_pos hdelay]
    cases a.expected <;> exact ⟨rfl, rfl, rfl, rfl⟩
  · by_cases hpriority : 0 < a.job.opts.priority
    · simp only [if_neg hdelay, if_pos hpriority]
      exact ⟨rfl, rfl, rfl, rfl⟩
    · simp only [if_neg hdelay, if_neg hpriority]
      cases isPaused <;> exact ⟨rfl, rfl, rfl, rfl⟩

theorem place_setIdCounter (s : InMemoryStore D R P) (n : ℕ) (a : Admission D R P) (pc id : ℕ)
    (isPaused : Bool) :
    ({ s with idCounter := n } : InMemoryStore D R P).place a pc id isPaused =
      ((s.place a pc id isPaused).1,
        { (s.place a pc id isPaused).2 with idCounter := n }) := by
  unfold place
  by_cases hdelay : 0 < a.delay
  · simp only [if_pos hdelay]
    cases a.expected <;> rfl
  · by_cases hpriority : 0 < a.job.opts.priority
    · simp only [if_neg hdelay, if_pos hpriority]
      rfl
    · simp only [if_neg hdelay, if_neg hpriority]
      cases isPaused <;> rfl

/-- The counters are advanced before the checks. -/
def counted (s : InMemoryStore D R P) (opts : JobOptions) : InMemoryStore D R P :=
  { s with
    idCounter := s.idCounter + 1
    priorityCounter := if 0 < opts.priority then s.priorityCounter + 1 else s.priorityCounter }

theorem addOne_eq_insert (s : InMemoryStore D R P) (item : NewJob D) (queueOpts : QueueOpts)
    (isPaused : Bool) (clock : Clock) :
    let opts := NewJob.opts queueOpts item
    s.addOne item queueOpts isPaused clock =
      (s.counted opts).insert (Job.new item.1 (some item.2.2) opts.id
        (some (s.keyPrefix ++ ":" ++ s.name)) clock.utc) opts
        (if 0 < opts.priority then s.priorityCounter + 1 else 0) (s.idCounter + 1) item.1 isPaused
        clock := by
  unfold addOne NewJob.opts counted
  by_cases hpriority : 0 < (updateJobOpts queueOpts (item.2.1.getD {})).priority
  · simp only [if_pos hpriority]
    rfl
  · simp only [if_neg hpriority]
    rfl

theorem addOne_accepted {s : InMemoryStore D R P} {item : NewJob D} {queueOpts : QueueOpts}
    {clock : Clock} {a : Admission D R P} (h : s.admission item queueOpts clock.utc = .ok a)
    (isPaused : Bool) :
    let opts := NewJob.opts queueOpts item
    let id := s.idCounter + 1
    let placed := (s.counted opts).place a
      (if 0 < opts.priority then s.priorityCounter + 1 else 0) id isPaused
    let job := { a.job with state := placed.1.1, id := some id }
    s.addOne item queueOpts isPaused clock =
      (.ok job, (placed.2.storeRecord id job).publishEvent
        (insertedEvent a id item.1 placed.1.2)) := by
  have hadmits : checkOptions (Job.new item.1 (some item.2.2) (NewJob.opts queueOpts item).id
      (some (s.keyPrefix ++ ":" ++ s.name)) clock.utc) (NewJob.opts queueOpts item) clock.utc =
        .ok a := h
  refine (s.addOne_eq_insert item queueOpts isPaused clock).trans ?_
  unfold insert
  rw [hadmits]

end InMemoryStore

theorem castSigned_priorityScore {priority pc : ℕ}
    (h : 0 ≤ castSigned (calculateNextPriorityScore priority pc)) :
    castSigned (calculateNextPriorityScore priority pc) =
      calculateNextPriorityScore priority pc := by
  have hbound : calculateNextPriorityScore priority pc < 2 ^ 64 := Nat.mod_lt _ (by decide)
  unfold castSigned at h ⊢
  split_ifs at h ⊢ with hsmall
  · rfl
  · omega

theorem prepareForInsert_accepted {V : Type} (T : CaseTable) (pairs : Job D R P → List (String × V))
    (queueName : String) (eventMode : QueueEventMode) (isPaused : Bool) (id priorCounter : ℕ)
    {opts : JobOptions} {job : Job D R P} (name : String) {now : Dt} {a : Admission D R P}
    (h : checkOptions job opts now = .ok a) :
    let placed := placeCommands T queueName isPaused id priorCounter a.delay opts.priority
      a.expected a.job.state
    let stored := { a.job with state := placed.1, id := some id }
    prepareForInsert T pairs queueName eventMode isPaused id priorCounter opts job name now =
      .ok ⟨stored, placed.2 ++ [.hsetMultiple (jobKey queueName id) (pairs stored),
        reportCommand queueName eventMode id name a.delay opts.priority], .ok ()⟩ := by
  obtain ⟨ms, hexpected, hms, hdelay, hjob, hlong⟩ := checkOptions_cases h
  unfold prepareForInsert
  simp only [hexpected, hms, hjob]
  rw [hdelay] at hlong ⊢
  rw [if_neg hlong]

namespace Mirrors

variable {T : CaseTable} {st : RedisStore} {codec : JobCodec D R P} {now : ℕ}
  {s : InMemoryStore D R P} {db : Keyspace (QueueStreamEvent R P)}

theorem place (h : Mirrors T st codec now s db) {a : Admission D R P} {id pc priorCounter : ℕ}
    (hkeys : KeysAgree T st.keyPrefix st.name id false)
    (hpc : 0 < a.job.opts.priority → pc = priorCounter)
    (hdelayed : 0 < a.delay → AdmitsScore s.delayed id a.expected)
    (hprioritized : ¬ 0 < a.delay → 0 < a.job.opts.priority → AdmitsScore s.prioritized id
      (some (castSigned (calculateNextPriorityScore a.job.opts.priority pc)))) :
    let placed : JobState × List (Cmd Text (QueueStreamEvent R P)) :=
      placeCommands T st.queueName false id priorCounter a.delay a.job.opts.priority a.expected
        a.job.state
    placed.1 = (s.place a pc id false).1.1 ∧
      Mirrors T st codec now (s.place a pc id false).2
        (db.onServer fun r => r.execAll placed.2) := by
  obtain ⟨-, hdelayedKey, hprioritizedKey, hwaitKey, -⟩ := hkeys
  have hdelayedKey : delayedKey st.queueName = st.key T .delayed := hdelayedKey
  have hprioritizedKey : prioritizedKey T st.queueName = st.key T .prioritized := hprioritizedKey
  have hwaitKey : waitingKey T st.queueName false = st.key T .wait := hwaitKey
  unfold InMemoryStore.place placeCommands
  by_cases hdelay : 0 < a.delay
  · simp only [if_pos hdelay]
    have hadmits := hdelayed hdelay
    cases hexpected : a.expected with
    | none =>
      rw [hexpected] at hadmits
      exact hadmits.elim
    | some due =>
      rw [hexpected] at hadmits
      refine ⟨rfl, ?_⟩
      rw [hdelayedKey]
      exact h.addScored .delayed hadmits
  · by_cases hpriority : 0 < a.job.opts.priority
    · have hadmits := hprioritized hdelay hpriority
      have hadd : ∀ score, AdmitsScore s.prioritized id (some score) →
          Mirrors T st codec now (s.addItem .prioritized id (some score) true)
            (db.onServer fun r => r.execAll [.zadd (st.key T .prioritized) id score]) :=
        fun score hscore => h.addScored .prioritized hscore
      have hscore := castSigned_priorityScore hadmits.1
      simp only [if_neg hdelay, if_pos hpriority, true_and]
      rw [hprioritizedKey, ← hpc hpriority, ← hscore]
      exact hadd _ hadmits
    · simp only [if_neg hdelay, if_neg hpriority, true_and]
      rw [hwaitKey]
      exact h.addListed .wait id true

theorem storeRecord (h : Mirrors T st codec now s db) {id : ℕ} {job : Job D R P}
    (hkey : jobKey st.queueName id = st.recordKey T id) (hfresh : s.getJob id = none)
    (hfits : job.Fits codec) :
    Mirrors T st codec now (s.storeRecord id job) (db.onServer fun r =>
      r.exec (.hsetMultiple (jobKey st.queueName id) (codec.serializeIntoPairs job))) := by
  have hempty : db.hashes (st.recordKey T id) = [] := by
    have hold := h.hashes_record id
    rwa [hfresh] at hold
  have hget : ∀ j, (s.jobs.insertConstant (.job id) job).get (.job j) =
      if j = id then some job else s.jobs.get (.job j) := by
    intro j
    simp only [RecordMap.get_insertConstant, CollectionSuffix.job.injEq]
  have hset : (db.onServer fun r => r.exec
      (.hsetMultiple (jobKey st.queueName id) (codec.serializeIntoPairs job))) =
      db.onServer fun r => { r with
        hashes := Function.update r.hashes (st.recordKey T id)
          (codec.serializeIntoPairs job) } := by
    rw [hkey]
    simp only [Keyspace.onServer, Server.exec]
    rw [hempty]
    rfl
  rw [hset]
  refine h.setRecord id _ _ (fun j hj => ?_) ?_
  · rw [hget, if_neg hj]
  · rw [hget, if_pos rfl]
    exact JobCodec.represents_serializeIntoPairs hfits

theorem report_eq (queueName : String) (a : Admission D R P) (id pc : ℕ) (name : String)
    (hexpected : 0 < a.delay → a.expected.isSome = true) :
    (reportCommand queueName .pubSub id name a.delay a.job.opts.priority :
      Cmd Text (QueueStreamEvent R P)) = .publish (eventsKeys queueName)
        (insertedEvent a id name (s.place a pc id false).1.2) := by
  unfold reportCommand insertedEvent InMemoryStore.place
  by_cases hdelay : 0 < a.delay
  · obtain ⟨due, hdue⟩ := Option.isSome_iff_exists.mp (hexpected hdelay)
    simp only [hdelay, hdue, if_true]
  · by_cases hpriority : 0 < a.job.opts.priority <;> simp [hdelay, hpriority]

/-- One accepted job: its commands have the effect of the addition in memory, which leaves the
counters to the end of the batch. -/
theorem insert (h : Mirrors T st codec now s db) {a : Admission D R P} {id priorCounter : ℕ}
    (hkeys : KeysAgree T st.keyPrefix st.name id false) (pc : ℕ) (name : String)
    (hpc : 0 < a.job.opts.priority → pc = priorCounter) (hfresh : s.getJob id = none)
    (hfits : ({ a.job with id := some id } : Job D R P).Fits codec)
    (hdelayed : 0 < a.delay → AdmitsScore s.delayed id a.expected)
    (hprioritized : ¬ 0 < a.delay → 0 < a.job.opts.priority → AdmitsScore s.prioritized id
      (some (castSigned (calculateNextPriorityScore a.job.opts.priority pc)))) :
    let placed := s.place a pc id false
    let job := { a.job with state := placed.1.1, id := some id }
    let commands : JobState × List (Cmd Text (QueueStreamEvent R P)) :=
      placeCommands T st.queueName false id priorCounter a.delay a.job.opts.priority a.expected
        a.job.state
    commands.1 = placed.1.1 ∧
      Mirrors T st codec now
        ((placed.2.storeRecord id job).publishEvent (insertedEvent a id name placed.1.2))
        (db.onServer fun r => r.execAll (commands.2 ++
          [.hsetMultiple (jobKey st.queueName id) (codec.serializeIntoPairs job),
            reportCommand st.queueName .pubSub id name a.delay a.job.opts.priority])) := by
  intro placed job commands
  obtain ⟨hstate, hplaced⟩ := h.place hkeys hpc hdelayed hprioritized
  have hfresh' : placed.2.getJob id = none := by
    rw [InMemoryStore.getJob, (s.sameHeader_place a pc id false).jobs]
    exact hfresh
  have hfits' : job.Fits codec :=
    ⟨hfits.id, hfits.attemptsMade, hfits.delay, hfits.priority, hfits.stalledCounter, hfits.ts,
      hfits.processedOn, hfits.finishedOn, hfits.opts⟩
  have hstored := hplaced.storeRecord hkeys.1 hfresh' hfits'
  have hexpected : 0 < a.delay → a.expected.isSome = true := by
    intro hdelay
    have hadmits := hdelayed hdelay
    cases hdue : a.expected with
    | none =>
      rw [hdue] at hadmits
      exact hadmits.elim
    | some due => rfl
  have hpublished := hstored.publish (insertedEvent a id name placed.1.2)
  have hchannel : st.eventsKey T = eventsKeys st.queueName := hkeys.2.2.2.2.symm
  refine ⟨hstate, ?_⟩
  rw [report_eq st.queueName a id pc name hexpected (s := s), ← hchannel]
  simp only [Server.execAll_append]
  exact hpublished

theorem incrId (h : Mirrors T st codec now s db) (n : ℕ) :
    Mirrors T st codec now { s with idCounter := s.idCounter + n }
      (db.onServer fun r => r.exec (.incr (st.idKey T) n)) := by
  obtain ⟨counter, hslot, hcounter⟩ := h.slots .id
  have hkey : st.idKey T = st.key T .id := rfl
  refine h.write .id (fun k hk => ?_) rfl (fun suffix hne slot hm => ?_) rfl rfl ?_
  · rw [Keyspace.slot_incr, hkey, if_neg hk]
  · cases suffix <;> first | exact hm | exact absurd rfl hne
  · rw [Keyspace.slot_incr, hkey, if_pos rfl, hslot]
    exact ⟨_, rfl, congrArg (· + n) hcounter⟩

theorem incrPriority (h : Mirrors T st codec now s db) (n : ℕ) :
    Mirrors T st codec now s (db.onServer fun r => r.exec (.incr (st.pcKey T) n)) := by
  have hkey : st.pcKey T = st.key T .priorityCounter := rfl
  refine h.write .priorityCounter (fun k hk => ?_) rfl (fun _ _ _ hm => hm) rfl rfl trivial
  rw [Keyspace.slot_incr, hkey, if_neg hk]

end Mirrors

/-! ### The batch -/

namespace RedisStore

variable {T : CaseTable} {st : RedisStore} {codec : JobCodec D R P} {queueOpts : QueueOpts}
  {clock : Clock} {now lastId : ℕ} {s : InMemoryStore D R P}
  {db : Keyspace (QueueStreamEvent R P)}

def addBulk (T : CaseTable) (codec : JobCodec D R P) (st : RedisStore) (queueOpts : QueueOpts)
    (items : List (NewJob D)) (eventMode : QueueEventMode) (isPaused : Bool) (clock : Clock)
    (db : Keyspace (QueueStreamEvent R P)) :
    KioResult (List (Job D R P)) × Keyspace (QueueStreamEvent R P) :=
  let db := db.purge clock.instant
  let out := st.add T codec.serializeIntoPairs queueOpts db.toServer
    ⟨items, eventMode, isPaused, true, clock.utc⟩
  (out.1, db.onServer fun _ => out.2)

/-- What the loop has collected so far, against the store in memory. The server still has the
counter `lastId` of the ids that it had before. -/
structure Collected (T : CaseTable) (st : RedisStore) (codec : JobCodec D R P) (now lastId : ℕ)
    (db : Keyspace (QueueStreamEvent R P)) (s : InMemoryStore D R P) (l : AddLoop D R P Text) :
    Prop where
  name : s.keyPrefix ++ ":" ++ s.name = st.queueName
  idCounter : l.idCounter = s.idCounter + 1
  pcCounter : l.pcCounter = s.priorityCounter + 1
  mirrors : Mirrors T st codec now { s with idCounter := lastId }
    (db.onServer fun r => r.execAll l.pipeline)

theorem collected_addItem (all : List (NewJob D)) {item : NewJob D} {l : AddLoop D R P Text}
    (hfixed : T.Fixed (st.keyPrefix.toList ++ st.name.toList))
    (h : Collected T st codec now lastId db s l) {a : Admission D R P}
    (hitem : s.Acceptable codec item queueOpts clock.utc a) :
    ∃ job l', (s.addOne item queueOpts false clock).1 = .ok job ∧
      addItem T codec.serializeIntoPairs st queueOpts ⟨all, .pubSub, false, true, clock.utc⟩ l
        item = .ok l' ∧ l'.jobs = l.jobs ++ [job] ∧
      Collected T st codec now lastId db (s.addOne item queueOpts false clock).2 l' := by
  obtain ⟨idCounter, pcCounter, toPriorize, pipeline, jobs⟩ := l
  obtain ⟨hname, rfl : idCounter = _, rfl : pcCounter = _, hmirrors⟩ := h
  have hcheck := hitem.accepted
  unfold InMemoryStore.admission at hcheck
  rw [hname] at hcheck
  have hopts : a.job.opts = NewJob.opts queueOpts item := by
    obtain ⟨_, -, -, -, hjob, -⟩ := checkOptions_cases hcheck
    exact (Job.addOpts_spec hjob).1
  have hprepared := prepareForInsert_accepted T codec.serializeIntoPairs st.queueName .pubSub false
    (s.idCounter + 1) (s.priorityCounter + 1) item.1 hcheck
  have hadded := InMemoryStore.addOne_accepted hitem.accepted false
  rw [← hopts] at hprepared hadded
  have hcounted : Mirrors T st codec now { s.counted a.job.opts with idCounter := lastId }
      (db.onServer fun r => r.execAll pipeline) :=
    hmirrors.writeStore (fun suffix slot hm => by cases suffix <;> exact hm) rfl rfl
  have hkeys : KeysAgree T st.keyPrefix st.name (s.idCounter + 1) false :=
    (keysAgree_iff_fixed T st.keyPrefix st.name _ _).mpr hfixed
  obtain ⟨hstate, hinserted⟩ := hcounted.insert hkeys
    (if 0 < a.job.opts.priority then s.priorityCounter + 1 else 0) item.1
    (fun hpriority => if_pos hpriority) hitem.fresh hitem.fits hitem.delayed
    (fun hdelay hpriority => by
      rw [if_pos hpriority]
      exact hitem.prioritized hdelay hpriority)
  rw [InMemoryStore.place_setIdCounter] at hstate hinserted
  have hheader := (s.counted a.job.opts).sameHeader_place a
    (if 0 < a.job.opts.priority then s.priorityCounter + 1 else 0) (s.idCounter + 1) false
  unfold addItem
  dsimp only
  rw [← hopts, hprepared, hadded]
  refine ⟨_, _, rfl, rfl, ?_, hheader.name.trans hname, ?_, ?_, ?_⟩
  · rw [hstate]
  · exact congrArg (· + 1) hheader.idCounter.symm
  · refine Eq.trans ?_ (congrArg (· + 1) hheader.priorityCounter.symm)
    change (if 0 < a.job.opts.priority then _ else _) =
      (if 0 < a.job.opts.priority then _ else _) + 1
    split_ifs <;> rfl
  · rw [hstate]
    simp only [Server.execAll_append] at hinserted ⊢
    exact hinserted.writeStore (fun suffix slot hm => by cases suffix <;> exact hm) rfl rfl

/-- The loop collects the commands of what is added in memory. -/
theorem collected_addLoop (all : List (NewJob D))
    (hfixed : T.Fixed (st.keyPrefix.toList ++ st.name.toList)) (items : List (NewJob D))
    {l : AddLoop D R P Text} (h : Collected T st codec now lastId db s l)
    (hbatch : AcceptableBatch codec queueOpts clock s items) :
    ∃ jobs l', (s.addBulk items queueOpts false clock).1 = .ok jobs ∧
      addLoop T codec.serializeIntoPairs st queueOpts ⟨all, .pubSub, false, true, clock.utc⟩ items
        l = .ok l' ∧ l'.jobs = l.jobs ++ jobs ∧
      Collected T st codec now lastId db (s.addBulk items queueOpts false clock).2 l' := by
  induction items generalizing s l with
  | nil => exact ⟨[], l, rfl, rfl, (List.append_nil _).symm, h⟩
  | cons item items ih =>
    obtain ⟨⟨a, hitem⟩, hrest⟩ := hbatch
    obtain ⟨job, l₁, hjob, hloop, hjobs, hcollected⟩ := collected_addItem all hfixed h hitem
    obtain ⟨jobs, l', hmemory, hredis, hall, hend⟩ := ih hcollected hrest
    have hone : s.addOne item queueOpts false clock =
        (.ok job, (s.addOne item queueOpts false clock).2) := Prod.ext hjob rfl
    refine ⟨job :: jobs, l', ?_, ?_, ?_, ?_⟩
    · rw [InMemoryStore.addBulk, hone]
      dsimp only
      rw [hmemory]
      rfl
    · rw [addLoop, hloop]
      exact hredis
    · rw [hall, hjobs, List.append_assoc, List.singleton_append]
    · rw [InMemoryStore.addBulk, hone]
      exact hend

theorem Collected.send {l : AddLoop D R P Text} (h : Collected T st codec now lastId db s l) :
    Mirrors T st codec now { s with idCounter := lastId + s.idCounter }
      (db.onServer fun r => r.execAll (st.finalPipeline T l)) := by
  have hlast : l.idCounter - 1 = s.idCounter := by rw [h.idCounter, Nat.add_sub_cancel]
  have hcounted := h.mirrors.incrId (l.idCounter - 1)
  rw [hlast] at hcounted
  unfold finalPipeline
  simp only [Server.execAll_append]
  rw [hlast]
  cases l.toPriorize with
  | false => exact hcounted
  | true => exact hcounted.incrPriority (l.pcCounter - 1)

/-- A batch has the same answer on both stores, and the same effect but for the counter of the
ids, to which the server adds the last id. -/
theorem addBulk_agrees (hfixed : T.Fixed (st.keyPrefix.toList ++ st.name.toList))
    (hname : s.keyPrefix ++ ":" ++ s.name = st.queueName)
    (hpriority : ((db.purge clock.instant).strings (st.pcKey T)).getD 0 = s.priorityCounter)
    {items : List (NewJob D)} (hbatch : AcceptableBatch codec queueOpts clock s items)
    (h : Mirrors T st codec clock.instant s db) :
    (st.addBulk T codec queueOpts items .pubSub false clock db).1 =
        (s.addBulk items queueOpts false clock).1 ∧
      Mirrors T st codec clock.instant
        { (s.addBulk items queueOpts false clock).2 with
          idCounter := s.idCounter + (s.addBulk items queueOpts false clock).2.idCounter }
        (st.addBulk T codec queueOpts items .pubSub false clock db).2 := by
  have hlast : ((db.purge clock.instant).strings (st.idKey T)).getD 0 = s.idCounter := by
    obtain ⟨counter, hslot, hcounter⟩ := h.purge.slots .id
    rw [← hcounter]
    exact congrArg (fun slot : Slot => slot.counter.getD 0) hslot
  have hstart : Collected T st codec clock.instant s.idCounter (db.purge clock.instant) s
      ⟨s.idCounter + 1, s.priorityCounter + 1, false, [], []⟩ := ⟨hname, rfl, rfl, h.purge⟩
  obtain ⟨jobs, l, hmemory, hredis, hjobs, hcollected⟩ := collected_addLoop items hfixed items
    hstart hbatch
  have hadd : st.addJobs T codec.serializeIntoPairs queueOpts (db.purge clock.instant).toServer
      ⟨items, .pubSub, false, true, clock.utc⟩ = .ok l := by
    unfold addJobs Server.get
    rw [hlast, hpriority]
    exact hredis
  have hout : st.addBulk T codec queueOpts items .pubSub false clock db =
      (.ok jobs, (db.purge clock.instant).onServer fun r => r.execAll (st.finalPipeline T l)) := by
    unfold addBulk add
    dsimp only
    rw [hadd]
    exact Prod.ext (congrArg Except.ok hjobs) rfl
  rw [hout, hmemory]
  exact ⟨rfl, hcollected.send⟩

def newMailKeyspace : Keyspace (QueueStreamEvent String ℕ) :=
  Keyspace.empty.onServer fun r => { r with
    hashes := Function.update r.hashes (mailStore.metaKey .ascii)
      [("event_mode", QueueEventMode.pubSub.text)] }

def newMail : InMemoryStore String String ℕ := .new (some "\x7bkio\x7d") "mail"

theorem mirrors_newMail (now : ℕ) :
    Mirrors .ascii mailStore mailCodec now newMail newMailKeyspace := by
  refine mirrors_new _ _ now (fun suffix hne => ?_) ?_ rfl
  · refine (Keyspace.slot_setHash _ _ _ _).trans (if_neg fun heq => hne ?_)
    exact mailStore.key_injective .ascii heq
  · exact (Keyspace.slot_setHash _ _ _ _).trans (if_pos rfl)

def twoMails : List (NewJob String) := [("greet", none, "hello"), ("greet", none, "bye")]

def mailClock : Clock := ⟨1000, 0⟩

def mailOpts : QueueOpts := { attempts := 0 }

theorem mail_acceptable {s : InMemoryStore String String ℕ}
    (hfresh : s.getJob (s.idCounter + 1) = none) (hsmall : s.idCounter + 1 < 2 ^ 64)
    (text : String) :
    ∃ a, s.Acceptable mailCodec ("greet", none, text) mailOpts mailClock.utc a := by
  refine ⟨⟨Job.new "greet" (some text) none (some (s.keyPrefix ++ ":" ++ s.name)) 1000, 0, none⟩,
    rfl, hfresh, ?_, fun h => absurd h (Nat.lt_irrefl 0), fun _ h => absurd h (Nat.lt_irrefl 0)⟩
  exact
    { id := by simpa using hsmall
      attemptsMade := by simp [Job.new]
      delay := by simp [Job.new]
      priority := by simp [Job.new]
      stalledCounter := by simp [Job.new]
      ts := ⟨by simp [Job.new], by simp [Job.new, Dt.maxUtc]⟩
      processedOn := by simp [Job.new]
      finishedOn := by simp [Job.new]
      opts := rfl }

end RedisStore

end Kiomq
