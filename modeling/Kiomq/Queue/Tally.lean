import Kiomq.Queue.StateAgreement

/-!
# Which operations touch the tally of completed jobs

The set of completed jobs is written by one operation only, the end of a successful run.
For every other action of the system: the tally and the id counter stay as they are, no id
gains copies, and the counter of jobs in processing moves with the dispatched tasks.
-/

namespace Kiomq

open Foundations

variable {D R P : Type}

namespace InMemoryStore

/-- The set of completed jobs and the id counter are the same, and no record has come to
say that its job is completed. -/
structure SameTally (s t : InMemoryStore D R P) : Prop where
  completed : t.completed = s.completed
  state : ∀ j, t.getState j = some .completed → s.getState j = some .completed
  lastId : t.idCounter = s.idCounter

theorem SameTally.refl (s : InMemoryStore D R P) : SameTally s s := ⟨rfl, fun _ h => h, rfl⟩

theorem SameTally.trans {s t u : InMemoryStore D R P} (h : SameTally s t) (h' : SameTally t u) :
    SameTally s u :=
  ⟨h'.completed.trans h.completed, fun j hj => h.state j (h'.state j hj),
    h'.lastId.trans h.lastId⟩

theorem Refiled.not_completed {s t : InMemoryStore D R P} {id : ℕ} {place : Place}
    (h : Refiled s t id place) (hplace : place ≠ .completed) (j : ℕ)
    (hj : t.getState j = some .completed) : s.getState j = some .completed := by
  by_cases hne : j = id
  · subst hne
    have hstate := h.state_self .completed hj
    exact absurd (Place.state_injective hstate.symm) hplace
  · exact h.state_of_ne j .completed hne hj

theorem completed_addItem (s : InMemoryStore D R P) {state : JobState} (h : state ≠ .completed)
    (i : ℕ) (score : Option ℤ) (append : Bool) :
    (s.addItem (.ofJobState state) i score append).completed = s.completed := by
  cases state with
  | completed => exact absurd rfl h
  | _ => rfl

theorem completed_removeItem (s : InMemoryStore D R P) {state : JobState}
    (h : state ≠ .completed) (i : ℕ) :
    (s.removeItem (.ofJobState state) i).completed = s.completed := by
  cases state with
  | completed => exact absurd rfl h
  | _ => rfl

theorem sameTally_getDelayedAt (s : InMemoryStore D R P) (start stop : ℤ) :
    SameTally s (s.getDelayedAt start stop).2 := ⟨rfl, fun _ h => h, rfl⟩

theorem sameTally_pause (s : InMemoryStore D R P) (b : Bool) : SameTally s (s.pause b) := by
  cases b <;> exact ⟨rfl, fun _ h => h, rfl⟩

end InMemoryStore

namespace Queue

open InMemoryStore

/-! ### Transitions -/

theorem completed_relocate (s : InMemoryStore D R P) (id : ℕ) {prev next : JobState}
    (hprev : prev ≠ .completed) (hnext : next ≠ .completed) (ts : Option ℤ) (clock : Clock) :
    (relocate s id prev next ts clock).completed = s.completed := by
  have hexists : (s.existsIn (.ofJobState next) id clock.instant).2.completed = s.completed := by
    cases next <;> rfl
  unfold relocate
  dsimp only
  split_ifs
  · rw [completed_addItem _ hnext, completed_removeItem _ hprev]
    rfl
  · exact hexists
  · rw [completed_addItem _ hnext, completed_removeItem _ hprev, hexists]

theorem completed_relocate_success (s : InMemoryStore D R P) (id : ℕ) {prev : JobState}
    (hprev : prev ≠ .completed) (ts : ℤ) (clock : Clock) :
    (relocate s id prev .completed (some ts) clock).completed =
      s.completed.insert (castUnsigned ts) id := by
  have hremove := completed_removeItem (s.incr (.job id) 1 (some .attemptsMade)).2 hprev id
  change OrderedMap.insert _ _ _ = _
  rw [hremove]
  rfl

theorem completed_moveJobToState (q : Queue D R P) (id : ℕ) {prev next : JobState}
    (hprev : prev ≠ .completed) (hnext : next ≠ .completed) (value : Option (ProcessedResult R))
    (ts : Option ℤ) (backtrace : Option Trace) (clock : Clock) :
    (q.moveJobToState id prev next value ts backtrace clock).2.store.completed =
      q.store.completed := by
  unfold moveJobToState
  split_ifs
  · rfl
  · rfl
  · exact completed_relocate q.store id hprev hnext ts clock

theorem getD_ne_completed {s : InMemoryStore D R P} {id : ℕ}
    (h : s.getState id ≠ some .completed) : (s.getState id).getD default ≠ .completed := by
  cases hs : s.getState id with
  | none => simp [default]
  | some state => simpa [hs] using h

theorem completed_moveJobToFinishedOrFailed (q : Queue D R P) {id : ℕ}
    (h : q.store.getState id ≠ some .completed) (ts : ℤ) (token : JobToken) {next : JobState}
    (hnext : next ≠ .completed) (processed : ProcessedResult R) (backtrace : Option Trace)
    (clock : Clock) :
    (q.moveJobToFinishedOrFailed id ts token next processed backtrace clock).2.store.completed =
      q.store.completed := by
  rw [moveJobToFinishedOrFailed_snd]
  exact q.completed_moveJobToState id (getD_ne_completed h) hnext (some processed) (some ts)
    backtrace clock

theorem completed_prepareJob (q : Queue D R P) {id : ℕ}
    (h : q.store.getState id ≠ some .completed) (token : JobToken) (opts : WorkerOpts)
    (clock : Clock) :
    (q.prepareJob token opts id clock).2.store.completed = q.store.completed := by
  have hmove := completed_moveJobToState
    { q with store := q.store.setLock (.lock id) (some token) opts.lockDuration clock.instant }
    id (getD_ne_completed h) (by simp : JobState.active ≠ .completed) none none none clock
  unfold prepareJob prepareJobForProcessing
  dsimp only
  split
  · next heq =>
    rw [heq] at hmove
    exact hmove
  · next heq =>
    rw [heq] at hmove
    split <;> exact hmove

theorem completed_moveToActive {q : Queue D R P}
    (hopen : ∀ j, q.store.shelved j ≠ 0 → q.store.getState j ≠ some .completed)
    (token : JobToken) (opts : WorkerOpts) (clock : Clock) :
    (q.moveToActive token opts clock).2.store.completed = q.store.completed := by
  have hpopped : ∀ s id, Popped q.store s id → s.completed = q.store.completed →
      (prepareJob { q with store := s } token opts id clock).2.store.completed =
        q.store.completed := by
    intro s id hpop hsame
    have hshelved := hpop.shelved id
    rw [if_pos rfl] at hshelved
    have hstate : s.getState id = q.store.getState id := by
      simp only [getState, getJob, hpop.jobs]
    refine (completed_prepareJob _ ?_ token opts clock).trans hsame
    change s.getState id ≠ _
    rw [hstate]
    exact hopen id (by omega)
  unfold moveToActive
  cases hp : q.store.popBackPushFront .wait .active with
  | mk found s =>
    cases found with
    | some id =>
      apply hpopped s id (popBackPushFront_some hp)
      obtain ⟨waiting, -, rfl⟩ := popBackPushFront_cases hp
      rfl
    | none =>
      obtain rfl := popBackPushFront_none hp
      cases hm : q.moveJobFromPriortyToActive with
      | mk found q' =>
        cases found with
        | none =>
          obtain rfl := moveJobFromPriortyToActive_none hm
          simp [hm]
        | some id =>
          obtain ⟨s, hq, hpop⟩ := moveJobFromPriortyToActive_some hm
          obtain ⟨score, es, rest, -, rfl⟩ := moveJobFromPriortyToActive_cases hm
          obtain rfl := congrArg Queue.store hq
          simp only [hm]
          exact hpopped _ id hpop rfl

theorem sameTally_moveToActive {q : Queue D R P} (hpause : q.isPaused = false)
    (hopen : ∀ j, q.store.shelved j ≠ 0 → q.store.getState j ≠ some .completed)
    (token : JobToken) (opts : WorkerOpts) (clock : Clock) :
    SameTally q.store (q.moveToActive token opts clock).2.store := by
  have hcompleted := completed_moveToActive hopen token opts clock
  rcases refiled_moveToActive hpause token opts clock with hsame | ⟨id, t, ht, hact, hr⟩
  · rw [hsame]
    exact .refl _
  · rw [ht] at hcompleted ⊢
    exact ⟨hcompleted, hr.not_completed (by simp), hact.lastId⟩

/-! ### Missed deadlines and what follows a run -/

theorem moveJobToFailed_spec {q : Queue D R P} {id : ℕ} (hpause : q.isPaused = false)
    (h : q.store.getState id ≠ some .completed) (ts : ℤ) (token : JobToken)
    (processed : ProcessedResult R) (backtrace : Option Trace) (clock : Clock) :
    ∃ t, (q.moveJobToFinishedOrFailed id ts token .failed processed backtrace clock).2 =
        { q with store := t } ∧ SameTally q.store t ∧ t.processing = q.store.processing ∧
      (∀ j, t.shelved j ≤ q.store.shelved j) ∧
      ∀ j, t.activeCount j ≤ q.store.activeCount j := by
  have hflags := q.sameFlags_moveJobToFinishedOrFailed id ts token .failed processed backtrace
    clock
  have hcompleted := q.completed_moveJobToFinishedOrFailed h ts token
    (by simp : JobState.failed ≠ .completed) processed backtrace clock
  have hrefiled : Refiled q.store
      (q.moveJobToFinishedOrFailed id ts token .failed processed backtrace clock).2.store id
      .failed :=
    refiled_moveJobToFinishedOrFailed hpause id ts token .failed processed backtrace clock
  cases hr : q.store.getJob id with
  | none =>
    rw [moveJobToFinishedOrFailed_missing hpause hr]
    exact ⟨q.store, rfl, .refl _, rfl, fun j => le_rfl, fun j => le_rfl⟩
  | some r =>
    obtain ⟨t, r', heq, hfin⟩ := moveJobToFinishedOrFailed_spec hpause hr ts token
      (Or.inl rfl : JobState.failed = .failed ∨ _) processed backtrace clock
    rw [heq] at hflags hcompleted hrefiled ⊢
    refine ⟨t, rfl, ⟨hcompleted, hrefiled.not_completed (by simp), hfin.lastId⟩,
      hflags.processing, hfin.shelved, fun j => ?_⟩
    by_cases hj : j = id
    · subst hj
      exact hfin.active_self
    · exact (hfin.active_other j hj).le

theorem sameTally_retryJob (q : Queue D R P) (id : ℕ) (opts : RetryOptions) (attempts : ℕ)
    (clock : Clock) : SameTally q.store (q.retryJob id opts attempts clock).2.store := by
  cases opts with
  | failed backoffJobOpts =>
    simp only [retryJob, retryFailed]
    split
    · exact .refl _
    · split <;> exact ⟨rfl, fun _ h => h, rfl⟩
  | withRepeat r =>
    simp only [retryJob]
    split
    · exact .refl _
    · exact .refl _
    · split_ifs <;> exact ⟨rfl, fun _ h => h, rfl⟩

theorem sameTally_cleanUpJob (q : Queue D R P) (id : ℕ)
    (removeOptions : Option RemoveOnCompletionOrFailure) (clock : Clock) :
    SameTally q.store (q.cleanUpJob id removeOptions clock).store := by
  obtain ⟨t, ht, hpruned⟩ := q.cleanUpJob_spec id removeOptions clock
  have hfewer := q.fewer_cleanUpJob id removeOptions clock
  have hcompleted : (q.cleanUpJob id removeOptions clock).store.completed =
      q.store.completed := by
    unfold cleanUpJob
    split
    · rfl
    · split_ifs <;> rfl
    · split_ifs <;> rfl
    · next keep => cases keep.age <;> dsimp only <;> split_ifs <;> rfl
  rw [ht] at hfewer hcompleted ⊢
  exact ⟨hcompleted, fun j hj => hfewer.state j .completed hj, hpruned.lastId⟩

theorem FollowStep.sameTally {q q' : Queue D R P} {id made attempts : ℕ} {clock : Clock}
    (h : FollowStep q id made attempts clock q') : SameTally q.store q'.store := by
  cases h with
  | skip => exact .refl _
  | retry opts n _ => exact q.sameTally_retryJob id opts n clock
  | cleanUp removeOptions => exact q.sameTally_cleanUpJob id removeOptions clock

/-! ### The end of a run -/

theorem completed_moveFinished {q : Queue D R P} (hpause : q.isPaused = false)
    {job : Job D R P} {metrics : JobMetrics} (hm : job.getMetrics = .ok metrics)
    (hex : q.store.jobExists (job.id.getD 0) = true)
    (hopen : q.store.getState (job.id.getD 0) ≠ some .completed) (token : JobToken) (result : R)
    (clock : Clock) :
    (q.moveFinished job token (.ok result) clock).2.store.completed =
      q.store.completed.insert (castUnsigned clock.utc.timestampMicros) (job.id.getD 0) := by
  have hinsert := completed_relocate_success q.store (job.id.getD 0) (getD_ne_completed hopen)
    clock.utc.timestampMicros clock
  simp only [moveFinished, hm, moveJobToFinishedOrFailed, moveJobToState_eq hpause hex]
  split <;> exact hinsert

/-- The task can end regularly, and a success is counted once: the handle has been stored,
all times that are needed can be computed, and a successful run is the last one and ends at
a time at which no other did. -/
def endsOnce (q : Queue D R P) (job : Job D R P) (returned : Except CaughtError R)
    (clock : Clock) : Bool :=
  match q.jobsInProgress.get? (job.id.getD 0), q.store.getJob (job.id.getD 0) with
  | some entry, some record =>
    job.getMetrics.isOk && entry.handle.isSome &&
      q.nextAttemptComputable (finishedState returned)
        { record with attemptsMade := record.attemptsMade + 1 } entry clock &&
      match returned with
      | .ok _ =>
        !q.reschedules (job.id.getD 0) returned clock &&
          !q.store.completed.containsKey (castUnsigned clock.utc.timestampMicros)
      | .error _ => true
  | _, _ => false

theorem Followed.copies {s t : InMemoryStore D R P} {id made attempts : ℕ}
    (h : Followed s t id made attempts) :
    (∀ j, t.shelved j ≤ s.shelved j + if j = id then 1 else 0) ∧
      t.activeCount = s.activeCount := by
  rcases h with ⟨h, -⟩ | h
  · exact ⟨h.shelved, h.active⟩
  · exact ⟨fun j => (congrFun h.shelved j).le.trans (Nat.le_add_right _ _), h.active⟩

/-- The regular end of a run: from the store `t`, in which the outcome has been recorded,
to the store `u` that the task leaves. -/
structure Closed (q : Queue D R P) (id : ℕ) (returned : Except CaughtError R) (clock : Clock)
    (t u : InMemoryStore D R P) : Prop where
  shelved : ∀ j, u.shelved j ≤ t.shelved j + if j = id then 1 else 0
  active : u.activeCount = t.activeCount
  tally : SameTally t u
  processing : ∀ n, q.store.processing = n + 1 → u.processing = n
  fewer : q.reschedules id returned clock = false → Fewer t u

theorem closed_settle {q : Queue D R P} {id handle : ℕ} {returned : Except CaughtError R}
    {clock : Clock} {entry : JobMeta D R P} {r r' : Job D R P} {t : InMemoryStore D R P}
    (hent : q.jobsInProgress.get? id = some entry) (hhandle : entry.handle = some handle)
    (hr : q.store.getJob id = some r) (hfin : Finished q.store t id r r')
    (hproc : t.processing = q.store.processing)
    (hnext : q.nextAttemptComputable (finishedState returned) r' entry clock = true)
    (workerId : Uuid) :
    ∃ u, (settle { q with store := t } id workerId (finishedState returned) fun q entry =>
        q.followUp id (finishedState returned) r' entry clock).2 =
          { q with jobsInProgress := q.jobsInProgress.remove id, store := u } ∧
      Closed q id returned clock t u := by
  let q₁ : Queue D R P := { q with jobsInProgress := q.jobsInProgress.remove id, store := t }
  have hok : (q₁.followUp id (finishedState returned) r' entry clock).1.isOk = true :=
    (q₁.isOk_followUp id _ r' entry clock).trans hnext
  have hstep := q₁.followUp_followStep id (finishedState returned) r' entry clock
  obtain ⟨v, hv, hfollowed⟩ := q₁.followUp_spec id (finishedState returned) r' entry clock
  cases hres : q₁.followUp id (finishedState returned) r' entry clock with
  | mk res q' =>
    rw [hres] at hok hstep hv
    obtain rfl : q' = { q₁ with store := v } := hv
    cases res with
    | error e => simp [Except.isOk, Except.toBool] at hok
    | ok ended =>
      obtain ⟨v', hv', hplaces⟩ := hstep.spec
      obtain rfl : v = v' := congrArg Queue.store hv'
      obtain ⟨hshelved, hactive⟩ := hplaces.copies
      have hsettle : (settle { q with store := t } id workerId (finishedState returned)
          fun q entry => q.followUp id (finishedState returned) r' entry clock).2 =
          (updateProcessingCount { q₁ with store := v } false workerId id
            (finishedState returned)).2 := by
        simp only [q₁] at hres ⊢
        simp only [settle, hent, hres, releaseTask, hhandle]
      refine ⟨_, hsettle, hshelved, hactive, ?_, ?_, ?_⟩
      · exact hstep.sameTally.trans ⟨rfl, fun _ h => h, rfl⟩
      · intro n hn
        have hv : v.processing = n + 1 := (hfollowed.flags.processing.trans hproc).trans hn
        exact processing_lower (q := { q₁ with store := v }) hv workerId id _
      · intro hnot
        obtain ⟨v', hv', hfewer⟩ := fewer_followUp hnot hent hr hfin
          (q.jobsInProgress.remove id)
        rw [hres] at hv'
        obtain rfl : v = v' := congrArg Queue.store hv'
        exact hfewer.trans (fewer_updateProcessingCount { q₁ with store := v } false workerId id _)

/-- A task that can end regularly records the outcome, follows it up and lowers the counter
of jobs in processing. -/
theorem processJob_regular {q : Queue D R P} (hpause : q.isPaused = false) {job : Job D R P}
    {returned : Except CaughtError R} {clock : Clock}
    (hends : q.endsOnce job returned clock = true) (token : JobToken) (workerId : Uuid) :
    ∃ metrics r r' t u, job.getMetrics = .ok metrics ∧
      q.store.getJob (job.id.getD 0) = some r ∧ Finished q.store t (job.id.getD 0) r r' ∧
      q.moveFinished job token returned clock =
        (.ok (finishedState returned, r'), { q with store := t }) ∧
      (q.processJob job token workerId returned clock).2 =
        { q with jobsInProgress := q.jobsInProgress.remove (job.id.getD 0), store := u } ∧
      Closed q (job.id.getD 0) returned clock t u := by
  unfold endsOnce at hends
  split at hends
  · next entry r hent hr =>
    simp only [Bool.and_eq_true] at hends
    obtain ⟨⟨⟨hmetrics, hhandle⟩, hnext⟩, -⟩ := hends
    obtain ⟨handle, hhandle⟩ := Option.isSome_iff_exists.mp hhandle
    cases hm : job.getMetrics with
    | error e => simp [hm, Except.isOk, Except.toBool] at hmetrics
    | ok metrics =>
      obtain ⟨t, r', heq, hfin⟩ := moveFinished_spec hpause hm hr token returned clock
      have hflags := q.sameFlags_moveFinished job token returned clock
      rw [heq] at hflags
      have hnext' : q.nextAttemptComputable (finishedState returned) r' entry clock = true := by
        simpa only [nextAttemptComputable, hfin.spent, hfin.opts] using hnext
      obtain ⟨u, hu, hclosed⟩ := closed_settle hent hhandle hr hfin hflags.processing hnext'
        workerId
      rw [processJob_eq, heq]
      exact ⟨metrics, r, r', t, u, rfl, hr, hfin, rfl, hu, hclosed⟩
  · simp at hends

end Queue

namespace System

open InMemoryStore

variable {w w' w'' : System D R P} {T T' T'' : List ℕ}

/-- No id has gained a copy, the tally is the same, and the counter of jobs in processing
has moved with the number of tasks. -/
structure Steady (w : System D R P) (T : List ℕ) (w' : System D R P) (T' : List ℕ) : Prop where
  copies : ∀ j, (w'.custody T').total j ≤ (w.custody T).total j
  tally : SameTally w.queue.store w'.queue.store
  running : w'.queue.store.processing + w.tasks.length =
    w.queue.store.processing + w'.tasks.length

theorem Steady.refl (w : System D R P) (T : List ℕ) : Steady w T w T :=
  ⟨fun _ => le_rfl, .refl _, rfl⟩

theorem Steady.trans (h : Steady w T w' T') (h' : Steady w' T' w'' T'') : Steady w T w'' T'' := by
  refine ⟨fun j => (h'.copies j).trans (h.copies j), h.tally.trans h'.tally, ?_⟩
  have hfirst := h.running
  have hsecond := h'.running
  omega

/-- No job that has a copy is recorded as completed. -/
def Open (w : System D R P) (T : List ℕ) : Prop :=
  ∀ j, (w.custody T).total j ≠ 0 → w.queue.store.getState j ≠ some .completed

theorem Open.steady (h : Open w T) (hs : Steady w T w' T') : Open w' T' := by
  intro j hj hstate
  have hle := hs.copies j
  exact h j (by omega) (hs.tally.state j hstate)

/-! ### Pausing, fetching and timers -/

theorem pauseOrResume_steady (w : System D R P) (T : List ℕ) :
    Steady w T { w with queue := w.queue.pauseOrResume } T := by
  have hcustody := custody_setStore_of_agree (agree_pauseOrResume w.queue) T
  have hpause := sameTally_pause w.queue.getMetrics.2.store (!w.queue.getMetrics.1.isPaused)
  constructor
  · intro j
    exact (congrArg (fun K => Custody.total K j) hcustody).le
  · exact ⟨hpause.completed, hpause.state, hpause.lastId⟩
  · simp only [Queue.pauseOrResume, InMemoryStore.pause]
    split_ifs <;> rfl

theorem dispatch_steady (w : System D R P) (T : List ℕ) (job : Job D R P) (token : JobToken)
    (opts : WorkerOpts) : Steady w T (w.dispatch job token opts) T := by
  unfold dispatch
  cases job.id with
  | none => exact .refl _ _
  | some id =>
    refine ⟨fun j => le_rfl, ⟨rfl, fun _ h => h, rfl⟩, ?_⟩
    dsimp only
    rw [Queue.processing_raise, List.length_append, List.length_singleton]
    omega

theorem fetch_steady (hw : Inv w T) (hopen : Open w T) (token : JobToken) (opts : WorkerOpts)
    (clock : Clock) :
    Steady w T { w with queue := (w.queue.moveToActive token opts clock).2 } T := by
  have hshelf : ∀ j, w.queue.store.shelved j ≠ 0 → w.queue.store.getState j ≠ some .completed := by
    intro j hj
    apply hopen j
    simp only [Custody.total, custody]
    omega
  have htally := Queue.sameTally_moveToActive hw.unpaused hshelf token opts clock
  have hflags := w.queue.sameFlags_moveToActive token opts clock
  rcases Queue.moveToActive_spec hw.unpaused token opts clock with ⟨hsame, -⟩ | ⟨id, t, ht, hact, -⟩
  · rw [hsame]
    exact .refl _ _
  · refine ⟨fun j => ?_, htally, congrArg (· + w.tasks.length) hflags.processing⟩
    have hshelved := hact.shelved j
    have hactive := hact.active j
    rw [ht]
    simp only [Custody.total, custody]
    omega

theorem poll_steady (hw : Inv w T) (hopen : Open w T) (token : JobToken) (opts : WorkerOpts)
    (clock : Clock) : Steady w T (w.poll token opts clock) T := by
  have hfetch := fetch_steady hw hopen token opts clock
  unfold poll Queue.getNextJob
  simp only [Bool.false_eq_true, if_false]
  cases hm : w.queue.moveToActive token opts clock with
  | mk res q =>
    rw [hm] at hfetch
    cases res with
    | error e => exact hfetch
    | ok found =>
      cases found with
      | processJob job => exact hfetch.trans (dispatch_steady _ T job token opts)
      | _ => exact hfetch

theorem collector_steady {c : Collector}
    (hle : ∀ j, (c.pendingPromotions w.queue.id).count j + T'.count j ≤
      (w.collector.pendingPromotions w.queue.id).count j + T.count j) :
    Steady w T { w with collector := c } T' :=
  ⟨total_collector_le hle, .refl _, rfl⟩

theorem deliver_steady {i jobId : ℕ} {q : Uuid}
    (hi : (w.collector.channel w.queue.id)[i]? = some (.promotedDelayed jobId q)) :
    Steady w T { w with
      queue := w.queue.processPromoted jobId
      collector := w.collector.takeCommand w.queue.id i } T :=
  ⟨total_deliver_le hi T, ⟨rfl, fun _ h => h, rfl⟩, rfl⟩

/-! ### Promotion -/

theorem failMissed_steady {id : ℕ} (hw : Inv w (id :: T)) (hopen : Open w (id :: T))
    (dateTime : Dt) (clock : Clock) :
    Steady w (id :: T) { w with queue := w.queue.failMissed dateTime clock id } T := by
  have hself : w.queue.store.getState id ≠ some .completed := by
    apply hopen id
    have hcons := count_cons_ite id id T
    rw [if_pos rfl] at hcons
    simp only [Custody.total, custody]
    omega
  have htoken : SameTally w.queue.store (w.queue.store.getToken id clock.instant).2 :=
    ⟨rfl, fun _ h => h, rfl⟩
  obtain ⟨t, ht, htally, hproc, hshelved, hactive⟩ := Queue.moveJobToFailed_spec
    (q := { w.queue with store := (w.queue.store.getToken id clock.instant).2 }) hw.unpaused hself
    dateTime.timestampMicros ((w.queue.store.getToken id clock.instant).1.getD ⟨0, 0, 0⟩)
    (.failed ⟨(w.queue.store.getCounter (.job id) (some .attemptsMade)).getD 0,
      Queue.missedDelayDeadline⟩) none clock
  have hmissed : w.queue.failMissed dateTime clock id = { w.queue with store := t } := ht
  rw [hmissed]
  refine ⟨fun j => ?_, htoken.trans htally, congrArg (· + w.tasks.length) hproc⟩
  have hs := hshelved j
  have ha := hactive j
  have hcons := count_cons_ite id j T
  change t.shelved j ≤ w.queue.store.shelved j at hs
  change t.activeCount j ≤ w.queue.store.activeCount j at ha
  simp only [Custody.total, custody]
  omega

theorem failAllMissed_steady {missed : List ℕ} (hw : Inv w missed) (hopen : Open w missed)
    (dateTime : Dt) (clock : Clock) :
    Steady w missed
      { w with
        queue := missed.foldl (fun q jobId => q.failMissed dateTime clock jobId) w.queue } [] := by
  induction missed generalizing w with
  | nil => exact .refl _ _
  | cons id missed ih =>
    have hone := failMissed_steady hw hopen dateTime clock
    exact hone.trans (ih (failMissed_tracks hw dateTime clock).inv (hopen.steady hone))

theorem promote_steady (hw : Inv w []) (hopen : Open w []) (dateTime : Dt) (intervalMs : ℤ)
    (clock : Clock) : Steady w [] (w.promote dateTime intervalMs clock) [] := by
  unfold promote Queue.promoteJobs
  by_cases hd : (!w.queue.currentMetrics.hasDelayed) = true
  · simp only [if_pos hd]
    exact .refl _ _
  · simp only [if_neg hd]
    cases hadd : dateTime.addMillis intervalMs with
    | error e => exact .refl _ _
    | ok until_ =>
      have htake := getDelayedAt_tracks hw dateTime.timestampMillis until_.timestampMillis
      have hsend := sendPromotions_tracks htake.inv
      have htaken : Steady w [] _ _ :=
        ⟨w.total_getDelayedAt_le dateTime.timestampMillis until_.timestampMillis,
          w.queue.store.sameTally_getDelayedAt _ _, rfl⟩
      have hsent := htaken.trans (collector_steady (count_sendPromotions_le w.queue.id _ _ _))
      exact hsent.trans (failAllMissed_steady hsend.inv (hopen.steady hsent) dateTime clock)

/-! ### Finishing a task -/

def finish (w : System D R P) (i : ℕ) (task : Task D R P) (returned : Except CaughtError R)
    (clock : Clock) : System D R P :=
  { w with
    queue := (w.queue.processJob task.job task.token task.token.worker returned clock).2
    tasks := w.tasks.eraseIdx i }

theorem not_completed_of_task (hw : Inv w T) {i : ℕ} {task : Task D R P}
    (hi : w.tasks[i]? = some task) {r : Job D R P}
    (hr : w.queue.store.getJob task.jobId = some r) :
    w.queue.store.getState task.jobId ≠ some .completed := by
  simp [getState, hr, state_of_task hw hi hr]

theorem finish_copies (hw : Inv w T) {i : ℕ} {task : Task D R P} (hi : w.tasks[i]? = some task)
    {returned : Except CaughtError R} {clock : Clock} {r r' : Job D R P}
    {t u : InMemoryStore D R P} (hfin : Finished w.queue.store t task.jobId r r')
    (hqueue : (w.queue.processJob task.job task.token task.token.worker returned clock).2 =
      { w.queue with
        jobsInProgress := w.queue.jobsInProgress.remove task.jobId, store := u })
    (hclosed : Queue.Closed w.queue task.jobId returned clock t u) (j : ℕ) :
    ((w.finish i task returned clock).custody T).total j ≤ (w.custody T).total j := by
  have hinv : Inv (w.finish i task returned clock) T := (finish_tracks hw hi returned clock).inv
  have hone := hinv.places.total_le_one j
  unfold finish at hone ⊢
  rw [hqueue] at hone ⊢
  by_cases hj : j = task.jobId
  · have hactive := active_of_task hw hi
    subst hj
    refine hone.trans ?_
    simp only [Custody.total, custody]
    omega
  · have hshelved := hclosed.shelved j
    have hshelved' := hfin.shelved j
    have hactive := congrFun hclosed.active j
    have hactive' := hfin.active_other j hj
    rw [if_neg hj] at hshelved
    simp only [Custody.total, custody]
    omega

theorem finish_running {i : ℕ} {task : Task D R P} (hi : w.tasks[i]? = some task)
    (hrun : w.queue.store.processing = w.tasks.length) {m : ℕ}
    (hproc : ∀ n, w.queue.store.processing = n + 1 → m = n) :
    m + w.tasks.length = w.queue.store.processing + (w.tasks.eraseIdx i).length := by
  obtain ⟨hlt, -⟩ := List.getElem?_eq_some_iff.mp hi
  have hm := hproc (w.tasks.length - 1) (by omega)
  rw [List.length_eraseIdx_of_lt hlt]
  omega

theorem finish_failure_steady (hw : Inv w T) {i : ℕ} {task : Task D R P}
    (hi : w.tasks[i]? = some task) {err : CaughtError} {clock : Clock}
    (hends : w.queue.endsOnce task.job (.error err) clock = true)
    (hrun : w.queue.store.processing = w.tasks.length) :
    Steady w T (w.finish i task (.error err) clock) T := by
  obtain ⟨metrics, r, r', t, u, hm, hr, hfin, hmove, hqueue, hclosed⟩ :=
    Queue.processJob_regular hw.unpaused hends task.token task.token.worker
  have hopen := not_completed_of_task hw hi hr
  have hrefiled := Queue.refiled_moveFinished hw.unpaused hm task.token (.error err) clock
  have hcompleted : (w.queue.moveFinished task.job task.token (.error err) clock).2.store.completed
      = w.queue.store.completed := by
    simp only [Queue.moveFinished, hm]
    exact w.queue.completed_moveJobToFinishedOrFailed hopen _ _ (by simp) _ _ clock
  rw [hmove] at hrefiled hcompleted
  have htally : SameTally w.queue.store t :=
    ⟨hcompleted, hrefiled.not_completed (by simp [Queue.finishedPlace]), hfin.lastId⟩
  refine ⟨finish_copies hw hi hfin hqueue hclosed, ?_, ?_⟩
  · unfold finish
    rw [hqueue]
    exact htally.trans hclosed.tally
  · unfold finish
    rw [hqueue]
    exact finish_running hi hrun hclosed.processing

/-- A task has ended with a success: its job has no copy left, and the tally has one entry
more. -/
structure Counted (w : System D R P) (T : List ℕ) (w' : System D R P) (id key : ℕ) : Prop where
  copies : ∀ j, (w'.custody T).total j ≤ (w.custody T).total j
  gone : (w'.custody T).total id = 0
  completed : w'.queue.store.completed = w.queue.store.completed.insert key id
  state : ∀ j, j ≠ id → w'.queue.store.getState j = some .completed →
    w.queue.store.getState j = some .completed
  lastId : w'.queue.store.idCounter = w.queue.store.idCounter
  running : w'.queue.store.processing + w.tasks.length =
    w.queue.store.processing + w'.tasks.length

theorem finish_success_counted (hw : Inv w T) {i : ℕ} {task : Task D R P}
    (hi : w.tasks[i]? = some task) {result : R} {clock : Clock}
    (hends : w.queue.endsOnce task.job (.ok result) clock = true)
    (hlast : w.queue.reschedules task.jobId (.ok result) clock = false)
    (hrun : w.queue.store.processing = w.tasks.length) :
    Counted w T (w.finish i task (.ok result) clock) task.jobId
      (castUnsigned clock.utc.timestampMicros) := by
  obtain ⟨metrics, r, r', t, u, hm, hr, hfin, hmove, hqueue, hclosed⟩ :=
    Queue.processJob_regular hw.unpaused hends task.token task.token.worker
  have hopen := not_completed_of_task hw hi hr
  have hex : w.queue.store.jobExists (task.job.id.getD 0) = true := by simp [jobExists, hr]
  have hrefiled := Queue.refiled_moveFinished hw.unpaused hm task.token (.ok result) clock
  have hcompleted := Queue.completed_moveFinished hw.unpaused hm hex hopen task.token result clock
  rw [hmove] at hrefiled hcompleted
  have hfewer := hclosed.fewer hlast
  constructor
  · exact finish_copies hw hi hfin hqueue hclosed
  · -- the job was in the active list only, and nothing has put it on a shelf
    have hone := hw.places.total_le_one task.jobId
    have hactive := active_of_task hw hi
    have hgone : u.activeCount task.jobId = 0 :=
      (congrFun hclosed.active task.jobId).trans (hfin.active_zero (state_of_task hw hi hr))
    have hbefore : t.shelved task.jobId ≤ w.queue.store.shelved task.jobId := hfin.shelved _
    simp only [Custody.total, custody] at hone
    have hshelf : u.shelved task.jobId = 0 := by
      by_contra hne
      obtain ⟨p, hp, hmem⟩ := (u.exists_shelf_iff task.jobId).mpr hne
      have hne' := (t.exists_shelf_iff task.jobId).mp ⟨p, hp, hfewer.filed p _ hmem⟩
      omega
    unfold finish
    rw [hqueue]
    simp only [Custody.total, custody]
    omega
  · unfold finish
    rw [hqueue]
    exact hclosed.tally.completed.trans hcompleted
  · intro j hj hjstate
    unfold finish at hjstate
    rw [hqueue] at hjstate
    exact hrefiled.state_of_ne j .completed hj (hclosed.tally.state j hjstate)
  · unfold finish
    rw [hqueue]
    exact hclosed.tally.lastId.trans hfin.lastId
  · unfold finish
    rw [hqueue]
    exact finish_running hi hrun hclosed.processing

end System

end Kiomq
