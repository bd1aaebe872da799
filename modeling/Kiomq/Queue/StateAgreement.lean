import Kiomq.Queue.Placement
import Kiomq.Queue.SingleHolder

/-!
# The recorded state of a job and the collection it is in

The collection of a job and the state in its record are written by different calls. They
agree along a run in which no job is filed without its record being told: a pause moves
whole lists, a promoted job is put in the wait list, and a job that is retried or repeated
is put back after its record was marked as finished.
-/

namespace Kiomq

open Foundations

variable {D R P : Type}

namespace InMemoryStore

/-- Every job with a record has the state of each collection that it is filed in. -/
def StatesAgree (s : InMemoryStore D R P) : Prop :=
  ∀ p j state, j ∈ s.filed p → s.getState j = some state → state = p.state

theorem StatesAgree.fewer {s t : InMemoryStore D R P} (h : s.StatesAgree) (hf : Fewer s t) :
    t.StatesAgree := by
  intro p j state hj hstate
  exact h p j state (hf.filed p j hj) (hf.state j state hstate)

theorem StatesAgree.refiled {s t : InMemoryStore D R P} {id : ℕ} {place : Place}
    (h : s.StatesAgree) (hr : Refiled s t id place)
    (hleft : ∀ p state, t.getState id = some state → id ∈ t.filed p → id ∈ s.filed p → p = place) :
    t.StatesAgree := by
  intro p j state hj hstate
  by_cases hne : j = id
  · subst hne
    have hplace : p = place := by
      rcases hr.filed p j hj with hold | ⟨-, hp⟩
      · exact hleft p state hstate hj hold
      · exact hp
    rw [hplace]
    exact hr.state_self state hstate
  · rcases hr.filed p j hj with hold | ⟨heq, -⟩
    · exact h p j state hold (hr.state_of_ne j state hne hstate)
    · exact absurd heq hne

end InMemoryStore

namespace Queue

open InMemoryStore

/-- The run that is about to end is followed by a retry or by a repetition. -/
def reschedules (q : Queue D R P) (jobId : ℕ) (returned : Except CaughtError R) (clock : Clock) :
    Bool :=
  match q.jobsInProgress.get? jobId, q.store.getJob jobId with
  | some entry, some job =>
    decide (job.attemptsMade + 1 < entry.job.opts.attempts) &&
      match returned with
      | .ok _ => job.opts.repeat_.any fun repeatOpts =>
        match repeatOpts.nextOccurrence q.backoff job.attemptsMade clock.utc with
        | .ok (some _) => true
        | _ => false
      | .error _ => entry.job.opts.backoff.any fun backoffJobOpts =>
        (q.calculateNextDelayMs backoffJobOpts (castSigned job.attemptsMade)).isSome
  | _, _ => false

theorem fewer_repeatOrCleanUp (q : Queue D R P) (id : ℕ) (completed : Job D R P)
    (entry : JobMeta D R P) (clock : Clock)
    (h : completed.attemptsMade < entry.job.opts.attempts →
      ∀ repeatOpts, completed.opts.repeat_ = some repeatOpts →
        ∀ next, repeatOpts.nextOccurrence q.backoff (predU64 completed.attemptsMade) clock.utc ≠
          .ok (some next)) :
    ∃ t, (q.repeatOrCleanUp id completed entry clock).2 = { q with store := t } ∧
      Fewer q.store t := by
  unfold repeatOrCleanUp
  split_ifs with hlt
  · cases hrepeat : completed.opts.repeat_ with
    | none => exact ⟨q.store, rfl, Fewer.refl _⟩
    | some repeatOpts =>
      have hnext := h hlt repeatOpts hrepeat
      simp only [retryJob]
      cases hocc : repeatOpts.nextOccurrence q.backoff (predU64 completed.attemptsMade)
          clock.utc with
      | error e => exact ⟨q.store, rfl, Fewer.refl _⟩
      | ok found =>
        cases found with
        | none => exact ⟨q.store, rfl, Fewer.refl _⟩
        | some next => exact absurd hocc (hnext next)
  · obtain ⟨t, ht, -⟩ := q.cleanUpJob_spec id entry.job.opts.removeOnComplete clock
    have hfewer := q.fewer_cleanUpJob id entry.job.opts.removeOnComplete clock
    rw [ht] at hfewer
    exact ⟨t, ht, hfewer⟩

theorem fewer_retryOrCleanUp (q : Queue D R P) (id : ℕ) (failedJob : Job D R P)
    (entry : JobMeta D R P) (clock : Clock)
    (h : failedJob.attemptsMade < entry.job.opts.attempts →
      ∀ backoffJobOpts, entry.job.opts.backoff = some backoffJobOpts →
        q.calculateNextDelayMs backoffJobOpts (castSigned (predU64 failedJob.attemptsMade)) =
          none) :
    ∃ t, (q.retryOrCleanUp id failedJob entry clock).2 = { q with store := t } ∧
      Fewer q.store t := by
  unfold retryOrCleanUp
  by_cases hlt : failedJob.attemptsMade < entry.job.opts.attempts
  · have hne : failedJob.attemptsMade ≠ entry.job.opts.attempts := by omega
    simp only [if_pos hlt, if_neg hne]
    cases hbackoff : entry.job.opts.backoff with
    | none => exact ⟨q.store, rfl, Fewer.refl _⟩
    | some backoffJobOpts =>
      simp only [retryJob, retryFailed, h hlt backoffJobOpts hbackoff]
      exact ⟨q.store, rfl, Fewer.refl _⟩
  · simp only [if_neg hlt]
    split_ifs
    · obtain ⟨t, ht, -⟩ := q.cleanUpJob_spec id entry.job.opts.removeOnFail clock
      have hfewer := q.fewer_cleanUpJob id entry.job.opts.removeOnFail clock
      rw [ht] at hfewer
      exact ⟨t, ht, hfewer⟩
    · exact ⟨q.store, rfl, Fewer.refl _⟩

theorem not_repeated {q : Queue D R P} {id : ℕ} {result : R} {clock : Clock}
    {entry : JobMeta D R P} {r r' : Job D R P} {t : InMemoryStore D R P}
    (h : q.reschedules id (.ok result) clock = false)
    (hent : q.jobsInProgress.get? id = some entry) (hr : q.store.getJob id = some r)
    (hfin : Finished q.store t id r r') (hlt : r'.attemptsMade < entry.job.opts.attempts)
    (repeatOpts : Repeat) (hrepeat : r'.opts.repeat_ = some repeatOpts) (next : ℤ) :
    repeatOpts.nextOccurrence q.backoff (predU64 r'.attemptsMade) clock.utc ≠ .ok (some next) := by
  intro hocc
  rw [hfin.spent, predU64_succ] at hocc
  rw [hfin.spent] at hlt
  rw [hfin.opts] at hrepeat
  simp [reschedules, hent, hr, hlt, hrepeat, hocc] at h

theorem not_retried {q : Queue D R P} {id : ℕ} {err : CaughtError} {clock : Clock}
    {entry : JobMeta D R P} {r r' : Job D R P} {t : InMemoryStore D R P}
    (h : q.reschedules id (.error err) clock = false)
    (hent : q.jobsInProgress.get? id = some entry) (hr : q.store.getJob id = some r)
    (hfin : Finished q.store t id r r') (hlt : r'.attemptsMade < entry.job.opts.attempts)
    (backoffJobOpts : BackOffJobOptions) (hbackoff : entry.job.opts.backoff = some backoffJobOpts) :
    q.calculateNextDelayMs backoffJobOpts (castSigned (predU64 r'.attemptsMade)) = none := by
  rw [hfin.spent] at hlt
  rw [hfin.spent, predU64_succ]
  simpa [reschedules, hent, hr, hlt, hbackoff] using h

theorem fewer_followUp {q : Queue D R P} {id : ℕ} {returned : Except CaughtError R}
    {clock : Clock} {entry : JobMeta D R P} {r r' : Job D R P} {t : InMemoryStore D R P}
    (h : q.reschedules id returned clock = false)
    (hent : q.jobsInProgress.get? id = some entry) (hr : q.store.getJob id = some r)
    (hfin : Finished q.store t id r r') (jobs : OrderedMap ℕ (JobMeta D R P)) :
    ∃ u, (followUp { q with jobsInProgress := jobs, store := t } id (finishedState returned) r'
        entry clock).2 = { q with jobsInProgress := jobs, store := u } ∧ Fewer t u := by
  cases returned with
  | ok result =>
    have hnot := not_repeated h hent hr hfin
    exact fewer_repeatOrCleanUp _ _ _ _ _ hnot
  | error err =>
    have hnot := not_retried h hent hr hfin
    exact fewer_retryOrCleanUp _ _ _ _ _ hnot

/-- The job is filed as completed or as failed. -/
def finishedPlace : Except CaughtError R → Place
  | .ok _ => .completed
  | .error _ => .failed

theorem refiled_moveFinished {q : Queue D R P} (hpause : q.isPaused = false) {job : Job D R P}
    {metrics : JobMetrics} (hm : job.getMetrics = .ok metrics) (token : JobToken)
    (returned : Except CaughtError R) (clock : Clock) :
    Refiled q.store (q.moveFinished job token returned clock).2.store (job.id.getD 0)
      (finishedPlace returned) := by
  cases returned with
  | ok result =>
    simp only [moveFinished, hm]
    exact refiled_moveJobToFinishedOrFailed hpause _ _ token .completed _ _ clock
  | error err =>
    simp only [moveFinished, hm]
    exact refiled_moveJobToFinishedOrFailed hpause _ _ token .failed _ _ clock

theorem fewer_settle (q : Queue D R P) (id : ℕ) (workerId : Uuid) (state : JobState)
    (follow : Queue D R P → JobMeta D R P → KioResult Unit × Queue D R P)
    (hfollow : ∀ entry, q.jobsInProgress.get? id = some entry →
      ∃ t, (follow { q with jobsInProgress := q.jobsInProgress.remove id } entry).2 =
        { q with jobsInProgress := q.jobsInProgress.remove id, store := t } ∧ Fewer q.store t) :
    (q.settle id workerId state follow).2.id = q.id ∧
      Fewer q.store (q.settle id workerId state follow).2.store := by
  unfold settle
  cases hent : q.jobsInProgress.get? id with
  | none => exact ⟨rfl, Fewer.refl _⟩
  | some entry =>
    obtain ⟨t, ht, hfewer⟩ := hfollow entry hent
    dsimp only
    cases hres : follow { q with jobsInProgress := q.jobsInProgress.remove id } entry with
    | mk res q' =>
      rw [hres] at ht
      obtain rfl := ht
      cases res with
      | error e => exact ⟨rfl, hfewer⟩
      | ok u =>
        have hrelease := fewer_releaseTask
          { q with jobsInProgress := q.jobsInProgress.remove id, store := t } entry.handle
          workerId id state
        refine ⟨?_, hfewer.trans hrelease⟩
        cases entry.handle <;> rfl

end Queue

namespace System

open InMemoryStore

/-- The action files no job that has a record in another collection than that of its
recorded state: a list that a pause or a resumption moves, and a promotion that is
delivered, are of jobs without a record, and a finished task is not followed by another
attempt. -/
def keepsStates (w : System D R P) : Action D R → Bool
  | .pauseOrResume =>
    let moved := if w.queue.store.isPaused then w.queue.store.paused else w.queue.store.waiting
    moved.values.all fun j => !w.queue.store.jobExists j
  | .finish i returned clock =>
    w.tasks[i]?.all fun t => !w.queue.reschedules t.jobId returned clock
  | .deliver i =>
    match (w.collector.channel w.queue.id)[i]? with
    | some (.promotedDelayed jobId _) => !w.queue.store.jobExists jobId
    | _ => true
  | _ => true

/-- The invariant; a promoted job is still recorded as delayed. -/
structure AgreeInv (w : System D R P) (transit : List ℕ) : Prop where
  held : Inv w transit
  agree : w.queue.store.StatesAgree
  outside : ∀ j state, (w.custody transit).outside j ≠ 0 →
    w.queue.store.getState j = some state → state = .delayed
  old : ∀ p j, j ∈ w.queue.store.filed p → j ≤ w.queue.store.idCounter

variable {w w' : System D R P} {T T' : List ℕ}

theorem total_ne_zero_of_outside {K : Custody} {j : ℕ} (h : K.outside j ≠ 0) : K.total j ≠ 0 := by
  unfold Custody.total
  omega

theorem AgreeInv.fewer (h : AgreeInv w T) (hheld : Inv w' T')
    (hf : Fewer w.queue.store w'.queue.store)
    (hout : ∀ j, (w'.custody T').outside j ≠ 0 →
      (w.custody T).outside j ≠ 0 ∨ j ∈ w.queue.store.filed .delayed) : AgreeInv w' T' := by
  constructor
  · exact hheld
  · exact h.agree.fewer hf
  · intro j state hj hstate
    have hstate' := hf.state j state hstate
    rcases hout j hj with hj | hj
    · exact h.outside j state hj hstate'
    · exact h.agree .delayed j state hj hstate'
  · intro p j hj
    exact (h.old p j (hf.filed p j hj)).trans hf.lastId

theorem AgreeInv.refiled (h : AgreeInv w T) (hheld : Inv w' T') {id : ℕ} {place : Place}
    (hr : Refiled w.queue.store w'.queue.store id place)
    (hid : id ≤ w'.queue.store.idCounter)
    (hleft : ∀ p state, w'.queue.store.getState id = some state → id ∈ w'.queue.store.filed p →
      id ∈ w.queue.store.filed p → p = place)
    (hout : ∀ j, (w'.custody T').outside j ≠ 0 → (w.custody T).outside j ≠ 0 ∧ j ≠ id) :
    AgreeInv w' T' := by
  constructor
  · exact hheld
  · exact h.agree.refiled hr hleft
  · intro j state hj hstate
    obtain ⟨hj, hne⟩ := hout j hj
    exact h.outside j state hj (hr.state_of_ne j state hne hstate)
  · intro p j hj
    rcases hr.filed p j hj with hj | ⟨rfl, -⟩
    · exact (h.old p j hj).trans hr.lastId
    · exact hid

/-! ### Adding and pausing -/

theorem addOne_agreeInv (h : AgreeInv w T) (item : InMemoryStore.NewJob D) (queueOpts : QueueOpts)
    (clock : Clock) :
    AgreeInv (w.setStore (w.queue.store.addOne item queueOpts false clock).2) T := by
  have hheld := (addOne_tracks h.held item queueOpts false clock).inv
  rcases w.queue.store.refiled_addOne item queueOpts clock with ⟨counter, heq⟩ | ⟨place, -, hr⟩
  · apply h.fewer hheld
    · rw [heq]
      exact .of_eq (by funext p; cases p <;> rfl) rfl (Nat.le_succ _)
    · exact fun j hj => Or.inl hj
  · apply h.refiled hheld hr
    · exact (w.queue.store.idCounter_addOne item queueOpts false clock).ge
    · intro p state _ _ hold
      have hle := h.old p _ hold
      omega
    · intro j hj
      refine ⟨hj, ?_⟩
      rintro rfl
      have hle := h.held.places.le_lastId (total_ne_zero_of_outside hj)
      exact absurd hle (Nat.not_succ_le_self _)

theorem addBulk_agreeInv (h : AgreeInv w T) (items : List (InMemoryStore.NewJob D))
    (queueOpts : QueueOpts) (clock : Clock) :
    AgreeInv (w.setStore (w.queue.store.addBulk items queueOpts false clock).2) T := by
  refine addBulk_keeps (motive := fun t => AgreeInv (w.setStore t) T) ?_ h
  intro item _ t ht
  exact addOne_agreeInv ht item queueOpts clock

/-- The list that is moved holds no job with a record. -/
theorem pauseOrResume_agreeInv (h : AgreeInv w T)
    (hkeep : w.keepsStates (.pauseOrResume : Action D R) = true) :
    AgreeInv { w with queue := w.queue.pauseOrResume } T := by
  have hfiled : ∀ p j, j ∈ w.queue.pauseOrResume.store.filed p → j ∈ w.queue.store.filed p ∨
      (w.queue.store.getState j = none ∧ ∃ p', j ∈ w.queue.store.filed p') := by
    intro p j hj
    simp only [keepsStates, List.all_eq_true, Bool.not_eq_true', jobExists] at hkeep
    have hmoved := (fewer_publishEvent _ _).filed p j hj
    rcases w.queue.getMetrics.2.store.filed_pause (!w.queue.store.isPaused) p j hmoved with
      hold | hlist
    · left
      cases p <;> exact hold
    · right
      change j ∈ (if (!w.queue.store.isPaused) = true then w.queue.store.waiting
        else w.queue.store.paused).values at hlist
      cases hpaused : w.queue.store.isPaused with
      | true =>
        simp only [hpaused, Bool.not_true, Bool.false_eq_true, if_false] at hlist
        simp only [hpaused, if_true] at hkeep
        exact ⟨by simpa [getState] using hkeep j hlist, .paused, hlist⟩
      | false =>
        simp only [hpaused, Bool.not_false, if_true] at hlist
        simp only [hpaused, Bool.false_eq_true, if_false] at hkeep
        exact ⟨by simpa [getState] using hkeep j hlist, .waiting, hlist⟩
  have hstate : w.queue.pauseOrResume.store.getState = w.queue.store.getState := by
    simp only [Queue.pauseOrResume, InMemoryStore.pause]
    split_ifs <;> rfl
  have hlast : w.queue.pauseOrResume.store.idCounter = w.queue.store.idCounter := by
    simp only [Queue.pauseOrResume, InMemoryStore.pause]
    split_ifs <;> rfl
  constructor
  · exact (pauseOrResume_tracks h.held).inv
  · intro p j state hj hs
    rw [hstate] at hs
    rcases hfiled p j hj with hold | ⟨hnone, -⟩
    · exact h.agree p j state hold hs
    · rw [hnone] at hs
      cases hs
  · intro j state hj hs
    rw [hstate] at hs
    exact h.outside j state hj hs
  · intro p j hj
    rw [hlast]
    rcases hfiled p j hj with hold | ⟨-, p', hold⟩
    · exact h.old p j hold
    · exact h.old p' j hold

/-! ### Fetching -/

theorem poll_frame (w : System D R P) (token : JobToken) (opts : WorkerOpts) (clock : Clock) :
    Fewer (w.queue.moveToActive token opts clock).2.store (w.poll token opts clock).queue.store ∧
      (w.poll token opts clock).queue.id = (w.queue.moveToActive token opts clock).2.id ∧
      (w.poll token opts clock).collector = w.collector := by
  unfold poll Queue.getNextJob
  simp only [Bool.false_eq_true, if_false]
  cases w.queue.moveToActive token opts clock with
  | mk res q =>
    cases res with
    | error e => exact ⟨Fewer.refl _, rfl, rfl⟩
    | ok found =>
      cases found with
      | processJob job =>
        simp only [dispatch]
        cases job.id with
        | none => exact ⟨Fewer.refl _, rfl, rfl⟩
        | some id =>
          exact ⟨q.fewer_updateProcessingCount true token.worker id job.state, rfl, rfl⟩
      | _ => exact ⟨Fewer.refl _, rfl, rfl⟩

theorem outside_eq (hid : w'.queue.id = w.queue.id) (hcol : w'.collector = w.collector)
    (j : ℕ) : (w'.custody T).outside j = (w.custody T).outside j := by
  simp only [custody, hid, hcol]

theorem poll_agreeInv (h : AgreeInv w T) (token : JobToken) (opts : WorkerOpts) (clock : Clock) :
    AgreeInv (w.poll token opts clock) T := by
  have hheld := (poll_tracks h.held token opts clock).inv
  obtain ⟨hpoll, hid, hcol⟩ := w.poll_frame token opts clock
  rcases Queue.refiled_moveToActive h.held.unpaused token opts clock with
    hsame | ⟨id, t, ht, hact, hr⟩
  · rw [hsame] at hpoll hid
    apply h.fewer hheld hpoll
    intro j hj
    rw [outside_eq hid hcol] at hj
    exact Or.inl hj
  · rw [ht] at hpoll hid
    have hshelved := hact.shelved id
    rw [if_pos rfl] at hshelved
    have hone := h.held.places.total_le_one id
    have hlast := h.held.places.le_lastId (total_ne_zero_of_activated (T := T) hact)
    simp only [Custody.total, custody] at hone hlast
    obtain ⟨shelf, hshelf, hmem⟩ := (w.queue.store.exists_shelf_iff id).mpr (by omega)
    apply h.refiled hheld (hr.fewer hpoll)
    · exact hlast.trans (hr.fewer hpoll).lastId
    · -- the job lay on one shelf, as its record said, and has left it
      intro p state hstate hnew hold
      obtain ⟨before, hbefore⟩ := hact.getState_eq_some (hpoll.state id state hstate)
      have hp : p = shelf := Place.state_injective
        ((h.agree p id before hold hbefore).symm.trans (h.agree shelf id before hmem hbefore))
      subst hp
      have hshelved' := (t.exists_shelf_iff id).mp ⟨p, hshelf, hpoll.filed p id hnew⟩
      omega
    · intro j hj
      rw [outside_eq hid hcol] at hj
      refine ⟨hj, ?_⟩
      rintro rfl
      simp only [custody] at hj
      omega

/-! ### Finishing a task -/

theorem finished_agreeInv (h : AgreeInv w T) (hheld : Inv w' T) {id : ℕ} {r r' : Job D R P}
    {t : InMemoryStore D R P} {place : Place} (hr : w.queue.store.getJob id = some r)
    (hactive : w.queue.store.activeCount id ≠ 0) (hfin : Finished w.queue.store t id r r')
    (hfiled : Refiled w.queue.store t id place) (hfewer : Fewer t w'.queue.store)
    (hid : w'.queue.id = w.queue.id) (hcol : w'.collector = w.collector) : AgreeInv w' T := by
  have hrefiled := hfiled.fewer hfewer
  have hstate : w.queue.store.getState id = some r.state := by simp [getState, hr]
  have hmem := (w.queue.store.mem_filed_active id).mpr hactive
  have hworking := h.agree .active id r.state hmem hstate
  have hone := h.held.places.total_le_one id
  have hlast : id ≤ w.queue.store.idCounter := h.old .active id hmem
  apply h.refiled hheld hrefiled
  · exact hlast.trans hrefiled.lastId
  · intro p state _ hnew hold
    have hp : p = .active := Place.state_injective
      ((h.agree p id r.state hold hstate).symm.trans hworking)
    subst hp
    have hgone := hfin.active_zero hworking
    exact absurd hgone ((t.mem_filed_active id).mp (hfewer.filed .active id hnew))
  · intro j hj
    rw [outside_eq hid hcol] at hj
    refine ⟨hj, ?_⟩
    rintro rfl
    simp only [Custody.total, custody] at hone hj
    omega

theorem finish_agreeInv (h : AgreeInv w T) {i : ℕ} {task : Task D R P}
    (hi : w.tasks[i]? = some task) (returned : Except CaughtError R) (clock : Clock)
    (hkeep : w.queue.reschedules task.jobId returned clock = false) :
    AgreeInv { w with
      queue := (w.queue.processJob task.job task.token task.token.worker returned clock).2
      tasks := w.tasks.eraseIdx i } T := by
  have hheld := (finish_tracks h.held hi returned clock).inv
  have hactive := active_of_task h.held hi
  rw [Queue.processJob_eq] at hheld ⊢
  cases hm : task.job.getMetrics with
  | error e =>
    rw [Queue.moveFinished_error hm] at hheld ⊢
    exact h.fewer hheld (Fewer.refl _) fun j hj => Or.inl hj
  | ok metrics =>
    cases hr : w.queue.store.getJob task.jobId with
    | none =>
      rw [Queue.moveFinished_missing h.held.unpaused hm hr] at hheld ⊢
      exact h.fewer hheld (Fewer.refl _) fun j hj => Or.inl hj
    | some r =>
      obtain ⟨t, r', heq, hfin⟩ := Queue.moveFinished_spec h.held.unpaused hm hr task.token
        returned clock
      have hfiled := Queue.refiled_moveFinished h.held.unpaused hm task.token returned clock
      rw [heq] at hfiled hheld ⊢
      have hsettle := Queue.fewer_settle { w.queue with store := t } task.jobId
        task.token.worker (Queue.finishedState returned)
        (fun q entry => q.followUp task.jobId (Queue.finishedState returned) r' entry clock)
        fun entry hent => Queue.fewer_followUp hkeep hent hr hfin _
      exact finished_agreeInv h hheld hr hactive hfin hfiled hsettle.2 hsettle.1 rfl

/-! ### Timers and promotion -/

theorem AgreeInv.collector (h : AgreeInv w T) {c : Collector}
    (hle : ∀ j, (c.pendingPromotions w.queue.id).count j + T'.count j ≤
      (w.collector.pendingPromotions w.queue.id).count j + T.count j) :
    AgreeInv { w with collector := c } T' := by
  apply h.fewer (h.held.collector hle).inv (Fewer.refl _)
  intro j hj
  left
  have hj' := hle j
  simp only [custody] at hj ⊢
  omega

theorem deliver_agreeInv (h : AgreeInv w T) {i jobId : ℕ} {q : Uuid}
    (hi : (w.collector.channel w.queue.id)[i]? = some (.promotedDelayed jobId q))
    (hkeep : w.queue.store.jobExists jobId = false) :
    AgreeInv { w with
      queue := w.queue.processPromoted jobId
      collector := w.collector.takeCommand w.queue.id i } T := by
  have hheld := (deliver_tracks h.held hi).inv
  have htake := Collector.count_pendingPromotions_takeCommand hi
  simp only [TimerType.promoted?, Option.some.injEq] at htake
  have hmissing : (w.queue.processPromoted jobId).store.getState jobId = none := by
    rw [Queue.processPromoted, getState_addItem]
    simpa [jobExists, getState] using hkeep
  have hself := htake jobId
  rw [if_pos rfl] at hself
  have hone := h.held.places.total_le_one jobId
  have hlast := h.held.places.le_lastId (i := jobId) (by
    simp only [Custody.total, custody]
    omega)
  simp only [Custody.total, custody] at hone
  have hr := (w.queue.store.entered_addItem .waiting jobId none true).refiled_of_missing hmissing
  apply h.refiled hheld hr
  · exact hlast
  · intro p state hstate
    rw [hmissing] at hstate
    cases hstate
  · intro j hj
    have hj' := htake j
    change ((w.collector.takeCommand w.queue.id i).pendingPromotions w.queue.id).count j +
      T.count j ≠ 0 at hj
    constructor
    · simp only [custody]
      omega
    · rintro rfl
      omega

theorem sendPromotions_agreeInv {due : List ℕ} (h : AgreeInv w (due ++ T)) :
    AgreeInv { w with collector := Queue.sendPromotions w.queue.id w.collector due } T :=
  h.collector (count_sendPromotions_le w.queue.id w.collector due T)

theorem failMissed_agreeInv {id : ℕ} (h : AgreeInv w (id :: T)) (dateTime : Dt) (clock : Clock) :
    AgreeInv { w with queue := w.queue.failMissed dateTime clock id } T := by
  have hheld := (failMissed_tracks h.held dateTime clock).inv
  have hone := h.held.places.total_le_one id
  have hcons := count_cons_ite id id T
  rw [if_pos rfl] at hcons
  have htransit : (w.custody (id :: T)).outside id ≠ 0 := by
    simp only [custody]
    omega
  have hlast : id ≤ w.queue.store.idCounter :=
    h.held.places.le_lastId (total_ne_zero_of_outside htransit)
  have hout : ∀ j, (w.collector.pendingPromotions w.queue.id).count j + T.count j ≠ 0 →
      (w.custody (id :: T)).outside j ≠ 0 ∧ j ≠ id := by
    intro j hj
    have hj' := count_cons_ite id j T
    constructor
    · simp only [custody]
      omega
    · rintro rfl
      simp only [Custody.total, custody] at hone
      omega
  have htoken := w.queue.store.fewer_getToken id clock.instant
  have hid : (w.queue.failMissed dateTime clock id).id = w.queue.id :=
    Queue.id_moveJobToFinishedOrFailed _ _ _ _ _ _ _ _
  have hrefiled : Refiled w.queue.store (w.queue.failMissed dateTime clock id).store id .failed :=
    (htoken.entered id .failed).refiled
      (Queue.refiled_moveJobToFinishedOrFailed
        (q := { w.queue with store := (w.queue.store.getToken id clock.instant).2 })
        h.held.unpaused id _ _ .failed _ _ clock)
  apply h.refiled hheld hrefiled
  · exact hlast.trans hrefiled.lastId
  · -- the record said that the job was delayed, and its delay is over
    intro p state hstate hnew hold
    cases hr : w.queue.store.getState id with
    | none =>
      have hmissing : w.queue.store.getJob id = none := by simpa [getState] using hr
      have hsame := Queue.moveJobToFinishedOrFailed_missing
        (q := { w.queue with store := (w.queue.store.getToken id clock.instant).2 })
        h.held.unpaused hmissing
      simp only [Queue.failMissed, hsame] at hstate
      rw [htoken.state id state hstate] at hr
      cases hr
    | some before =>
      have hdelayed := h.outside id before htransit hr
      have hp : p = .delayed := Place.state_injective
        ((h.agree p id before hold hr).symm.trans hdelayed)
      subst hp
      have hshelved := (w.queue.store.exists_shelf_iff id).mp ⟨.delayed, rfl, hold⟩
      simp only [Custody.total, custody] at hone
      omega
  · intro j hj
    simp only [custody, hid] at hj
    exact hout j hj

theorem failAllMissed_agreeInv {missed : List ℕ} (h : AgreeInv w missed) (dateTime : Dt)
    (clock : Clock) :
    AgreeInv
      { w with
        queue := missed.foldl (fun q jobId => q.failMissed dateTime clock jobId) w.queue } [] := by
  induction missed generalizing w with
  | nil => exact h
  | cons id missed ih => exact ih (failMissed_agreeInv h dateTime clock)

theorem getDelayedAt_agreeInv (h : AgreeInv w []) (start stop : ℤ) :
    AgreeInv (w.setStore (w.queue.store.getDelayedAt start stop).2)
      ((w.queue.store.getDelayedAt start stop).1.1 ++
        (w.queue.store.getDelayedAt start stop).1.2) := by
  apply h.fewer (getDelayedAt_tracks h.held start stop).inv
  · exact w.queue.store.fewer_getDelayedAt start stop
  · intro j hj
    by_cases hold : (w.custody []).outside j = 0
    · right
      apply w.queue.store.mem_delayed_of_mem_getDelayedAt start stop
      apply List.count_pos_iff.mp
      simp only [custody, setStore, List.count_nil] at hj hold
      omega
    · exact Or.inl hold

theorem promote_agreeInv (h : AgreeInv w []) (dateTime : Dt) (intervalMs : ℤ) (clock : Clock) :
    AgreeInv (w.promote dateTime intervalMs clock) [] := by
  unfold promote Queue.promoteJobs
  by_cases hd : (!w.queue.currentMetrics.hasDelayed) = true
  · simp only [if_pos hd]
    exact h
  · simp only [if_neg hd]
    cases hadd : dateTime.addMillis intervalMs with
    | error e => exact h
    | ok until_ =>
      simp only
      have htake := getDelayedAt_agreeInv h dateTime.timestampMillis until_.timestampMillis
      exact failAllMissed_agreeInv (sendPromotions_agreeInv htake) dateTime clock

/-! ### Runs -/

theorem step_agreeInv {a : Action D R} (h : AgreeInv w []) (hkeep : w.keepsStates a = true)
    (hstep : w.step a = some w') : AgreeInv w' [] := by
  cases a with
  | addBulk items clock =>
    obtain rfl := Option.some.inj hstep
    have hpause := h.held.unpaused
    simp only [Queue.bulkAdd, hpause]
    exact addBulk_agreeInv h items w.queue.opts clock
  | pauseOrResume =>
    obtain rfl := Option.some.inj hstep
    exact pauseOrResume_agreeInv h hkeep
  | getMetrics =>
    have hheld := (step_tracks h.held hstep).inv
    obtain rfl := Option.some.inj hstep
    have hfewer : Fewer w.queue.store w.queue.getMetrics.2.store :=
      .of_eq (by funext p; cases p <;> rfl) rfl le_rfl
    exact h.fewer hheld hfewer fun j hj => Or.inl hj
  | poll token opts clock =>
    obtain rfl := Option.some.inj hstep
    exact poll_agreeInv h token opts clock
  | storeHandle jobId handle =>
    obtain rfl := Option.some.inj hstep
    have hheld := (storeHandle_tracks h.held jobId handle).inv
    exact h.fewer hheld (Fewer.refl _) fun j hj => Or.inl hj
  | finish i returned clock =>
    obtain ⟨task, hi, rfl⟩ := Option.map_eq_some_iff.mp hstep
    apply finish_agreeInv h hi
    simpa [keepsStates, hi] using hkeep
  | registerTimer timer =>
    obtain ⟨c, rfl, hle⟩ := registerTimer_spec hstep
    exact h.collector (hle [])
  | promote dateTime intervalMs clock =>
    obtain rfl := Option.some.inj hstep
    exact promote_agreeInv h dateTime intervalMs clock
  | expire i =>
    obtain ⟨c, rfl, hle⟩ := expire_spec hstep
    exact h.collector (hle [])
  | deliver i =>
    obtain ⟨jobId, q, hi, rfl⟩ := deliver_spec hstep
    apply deliver_agreeInv h hi
    simpa [keepsStates, hi] using hkeep

theorem init_agreeInv (keyPrefix : Option String) (name : String) (opts : Option QueueOpts)
    (id : Uuid) (backoff : BackOff) :
    AgreeInv (init keyPrefix name opts id backoff : System D R P) [] := by
  have hempty : ∀ p j, j ∉ (init keyPrefix name opts id backoff :
      System D R P).queue.store.filed p := by
    intro p j hj
    cases p <;> cases hj
  constructor
  · exact init_inv keyPrefix name opts id backoff
  · intro p j state hj
    exact absurd hj (hempty p j)
  · intro j state _ hstate
    cases hstate
  · intro p j hj
    exact absurd hj (hempty p j)

/-- In every state of a run that files no recorded job out of step with its record, the
state in the record of a job is that of the collection it is in. -/
theorem statesAgree_of_keepsStates (keyPrefix : Option String) (name : String)
    (opts : Option QueueOpts) (id : Uuid) (backoff : BackOff) (as : List (Action D R))
    (h : Guarded step (fun (w : System D R P) a => w.keepsStates a = true)
      (init keyPrefix name opts id backoff) as) :
    Always step (fun w : System D R P => w.queue.store.StatesAgree)
      (init keyPrefix name opts id backoff) as := by
  have hinv := init_agreeInv (D := D) (R := R) (P := P) keyPrefix name opts id backoff
  exact always_of_invariant (fun w a w' hw hkeep hstep => step_agreeInv hw hkeep hstep)
    (fun w hw => hw.agree) hinv h

def plainRun : List (Action ℕ Unit) :=
  [.addBulk [("a", none, 7)] ⟨0, 0⟩, .poll ⟨1, 1, 1⟩ {} ⟨0, 0⟩, .storeHandle 1 5,
    .finish 0 (.ok ()) ⟨9, 0⟩]

theorem plainRun_statesAgree :
    Guarded step (fun (w : System ℕ Unit Unit) a => w.keepsStates a = true)
        (init none "mail" none 1 .new) plainRun ∧
      Always step (fun w : System ℕ Unit Unit => w.queue.store.StatesAgree)
        (init none "mail" none 1 .new) plainRun :=
  ⟨by decide +kernel, statesAgree_of_keepsStates none "mail" none 1 .new plainRun
    (by decide +kernel)⟩

def pausedRun : List (Action ℕ Unit) := [.addBulk [("a", none, 7)] ⟨0, 0⟩, .pauseOrResume]

/-- The job is in the paused list, and its record says that it waits. -/
theorem pausedRun_disagrees :
    (run step (init none "mail" none 1 .new : System ℕ Unit Unit) pausedRun).map
        (fun w => (w.queue.store.paused.values, w.queue.store.getState 1)) =
      some ([1], some .wait) ∧
      ¬ Always step (fun w : System ℕ Unit Unit => w.queue.store.StatesAgree)
        (init none "mail" none 1 .new) pausedRun := by
  constructor
  · decide +kernel
  · apply not_always_of_run fun w => decide
      (1 ∈ w.queue.store.paused.values ∧ w.queue.store.getState 1 = some .wait)
    · intro w hw hagree
      obtain ⟨hmem, hstate⟩ := of_decide_eq_true hw
      cases hagree .paused 1 .wait hmem hstate
    · decide +kernel

end System

end Kiomq
