import Kiomq.Foundations.Runs
import Kiomq.Queue.Transitions

/-!
# Adding a job while workers fetch

`insert` puts the id in a list and stores the record afterwards; a fetch takes the id
from the list and then looks for the record. Here both are cut into their calls of the
store, one atomic step each, and any number of workers interleave with the client. Run
without interruption the steps compose to `insert` and `moveToActive`. The job is
stranded in just those runs in which a worker looks for the record while the client is
between its two steps.
-/

namespace Kiomq

open Foundations InMemoryStore

variable {D R P : Type}

/-- Where a worker is in `move_to_active`: the last call of the store it has made. -/
inductive FetchPc (D R P : Type)
  | idle
  | noWaiting
  | noPrioritized
  | taken (id : ℕ)
  | popped (id : ℕ)
  | gotState (id : ℕ) (prev : JobState)
  | locked (id : ℕ) (prev : JobState)
  | found (id : ℕ) (prev : JobState)
  | absent (id : ℕ) (prev : JobState)
  | removed (id : ℕ) (prev : JobState)
  | located (id : ℕ) (prev : JobState)
  | stateSet (id : ℕ) (prev : JobState)
  | marked (id : ℕ)
  | tokenSet (id : ℕ)
  | delayUntil
  | returned (id : ℕ) (job : Job D R P)
  | notFound (id : ℕ)

structure FetchArgs where
  token : JobToken
  opts : WorkerOpts
  clock : Clock

/-- One call of the store by a worker. A finished fetch starts over. -/
def fetchStep (x : FetchArgs) (s : InMemoryStore D R P) :
    FetchPc D R P → InMemoryStore D R P × FetchPc D R P
  | .noWaiting =>
    match s.popSet .prioritized true with
    | ((id, _) :: _, s) => (s, .taken id)
    | ([], s) => (s, .noPrioritized)
  | .noPrioritized => (s.remove .priorityCounter, .delayUntil)
  | .taken id => (s.addItem .active id none true, .popped id)
  | .popped id => (s, .gotState id ((s.getState id).getD default))
  | .gotState id prev =>
    (s.setLock (.lock id) (some x.token) x.opts.lockDuration x.clock.instant, .locked id prev)
  | .locked id prev =>
    if s.storedMetrics.queueIsPaused then (s, .marked id)
    else if s.jobExists id then (s, .found id prev) else (s, .notFound id)
  | .found id prev =>
    let out := s.existsIn .active id x.clock.instant
    (out.2, if out.1 then .located id prev else .absent id prev)
  | .absent id prev => (s.removeItem (.ofJobState prev) id, .removed id prev)
  | .removed id prev => (s.addItem .active id none false, .located id prev)
  | .located id prev => (s.setFields id [.state .active], .stateSet id prev)
  | .stateSet id prev =>
    (s.publishEvent (Queue.transitionEvent id prev .active none), .marked id)
  | .marked id =>
    (s.setFields id [.token x.token, .processedOn (castUnsigned x.clock.utc.timestampMicros)],
      .tokenSet id)
  | .tokenSet id =>
    match s.getJob id with
    | some job => (s, .returned id job)
    | none => (s, .notFound id)
  | _ =>
    match s.popBackPushFront .wait .active with
    | (some id, s) => (s, .popped id)
    | (none, s) => (s, .noWaiting)

/-- Some number of steps of one worker that nobody interrupts. -/
def Solo (x : FetchArgs) (s : InMemoryStore D R P) (pc : FetchPc D R P)
    (s' : InMemoryStore D R P) (pc' : FetchPc D R P) : Prop :=
  ∃ n, (fun y => fetchStep x y.1 y.2)^[n] (s, pc) = (s', pc')

theorem Solo.refl (x : FetchArgs) (s : InMemoryStore D R P) (pc : FetchPc D R P) :
    Solo x s pc s pc := ⟨0, rfl⟩

theorem Solo.head {x : FetchArgs} {s u : InMemoryStore D R P} {pc pc'' : FetchPc D R P}
    (t : InMemoryStore D R P) (pc' : FetchPc D R P) (h : fetchStep x s pc = (t, pc'))
    (h' : Solo x t pc' u pc'') : Solo x s pc u pc'' := by
  obtain ⟨n, hn⟩ := h'
  refine ⟨n + 1, ?_⟩
  rw [Function.iterate_succ_apply]
  simp only [h]
  exact hn

theorem Solo.trans {x : FetchArgs} {s t u : InMemoryStore D R P} {pc pc' pc'' : FetchPc D R P}
    (h : Solo x s pc t pc') (h' : Solo x t pc' u pc'') : Solo x s pc u pc'' := by
  obtain ⟨n, hn⟩ := h
  obtain ⟨m, hm⟩ := h'
  refine ⟨m + n, ?_⟩
  rw [Function.iterate_add_apply, hn, hm]

/-- The result of `move_to_active` that a worker has arrived at. -/
def FetchPc.result : FetchPc D R P → Option (KioResult (MoveToActiveResult D R P))
  | .delayUntil => some (.ok (.delayUntil 0))
  | .returned _ job => some (.ok (.processJob job))
  | .notFound _ => some (.error .jobNotFound)
  | _ => none

theorem solo_moveJobToState (x : FetchArgs) (q : Queue D R P) (id : ℕ) (prev : JobState) :
    (∃ t,
        q.moveJobToState id prev .active none none none x.clock = (.ok (), { q with store := t }) ∧
        Solo x q.store (.locked id prev) t (.marked id)) ∨
      (q.moveJobToState id prev .active none none none x.clock = (.error .jobNotFound, q) ∧
        Solo x q.store (.locked id prev) q.store (.notFound id)) := by
  have hflag : q.store.storedMetrics.queueIsPaused = q.isPaused := rfl
  cases hp : q.isPaused with
  | true =>
    refine Or.inl ⟨q.store, by simp [Queue.moveJobToState, hp], ?_⟩
    exact Solo.head q.store (.marked id) (by simp [fetchStep, hflag, hp]) (Solo.refl _ _ _)
  | false =>
    cases hex : q.store.jobExists id with
    | false =>
      refine Or.inr ⟨Queue.moveJobToState_missing hp hex _ _ _ _ _ _, ?_⟩
      exact Solo.head q.store (.notFound id) (by simp [fetchStep, hflag, hp, hex])
        (Solo.refl _ _ _)
    | true =>
      refine Or.inl ⟨_, Queue.moveJobToState_eq hp hex _ _ _ _ _ _, ?_⟩
      refine Solo.head q.store (.found id prev) (by simp [fetchStep, hflag, hp, hex]) ?_
      -- the search in the active list decides whether the id is moved
      cases hin : q.store.active.containsValue id with
      | true =>
        have hrel : Queue.relocate q.store id prev .active none x.clock = q.store := by
          simp [Queue.relocate, CollectionSuffix.ofJobState, existsIn, hin]
        rw [hrel]
        refine Solo.head q.store (.located id prev) (by simp [fetchStep, existsIn, hin]) ?_
        exact Solo.head _ _ rfl (Solo.head _ _ rfl (Solo.refl _ _ _))
      | false =>
        have hrel : Queue.relocate q.store id prev .active none x.clock =
            (q.store.removeItem (.ofJobState prev) id).addItem .active id none false := by
          simp [Queue.relocate, CollectionSuffix.ofJobState, existsIn, hin]
        rw [hrel]
        refine Solo.head q.store (.absent id prev) (by simp [fetchStep, existsIn, hin]) ?_
        refine Solo.head _ _ rfl (Solo.head _ _ rfl ?_)
        exact Solo.head _ _ rfl (Solo.head _ _ rfl (Solo.refl _ _ _))

theorem solo_prepareJob (x : FetchArgs) (q : Queue D R P) (id : ℕ) :
    ∃ pc, Solo x q.store (.popped id) (q.prepareJob x.token x.opts id x.clock).2.store pc ∧
      pc.result = some ((q.prepareJob x.token x.opts id x.clock).1.map .processJob) := by
  have hstart : ∀ {u : InMemoryStore D R P} {pc : FetchPc D R P},
      Solo x (q.store.setLock (.lock id) (some x.token) x.opts.lockDuration x.clock.instant)
        (.locked id ((q.store.getState id).getD default)) u pc →
      Solo x q.store (.popped id) u pc :=
    fun h => Solo.head _ _ rfl (Solo.head _ _ rfl h)
  simp only [Queue.prepareJob, Queue.prepareJobForProcessing]
  rcases solo_moveJobToState x { q with
      store := q.store.setLock (.lock id) (some x.token) x.opts.lockDuration x.clock.instant } id
      ((q.store.getState id).getD default) with ⟨t, hmove, hsolo⟩ | ⟨hmove, hsolo⟩
  · simp only [hmove]
    cases hj : (t.setFields id [.token x.token,
        .processedOn (castUnsigned x.clock.utc.timestampMicros)]).getJob id with
    | none =>
      refine ⟨.notFound id, hstart (hsolo.trans ?_), rfl⟩
      exact Solo.head _ _ rfl (Solo.head _ _ (by simp only [fetchStep, hj]) (Solo.refl _ _ _))
    | some job =>
      refine ⟨.returned id job, hstart (hsolo.trans ?_), rfl⟩
      exact Solo.head _ _ rfl (Solo.head _ _ (by simp only [fetchStep, hj]) (Solo.refl _ _ _))
  · simp only [hmove]
    exact ⟨.notFound id, hstart hsolo, rfl⟩

/-- Without interruption the steps of a worker compose to `move_to_active`. -/
theorem solo_moveToActive (x : FetchArgs) (q : Queue D R P) :
    ∃ pc, Solo x q.store .idle (q.moveToActive x.token x.opts x.clock).2.store pc ∧
      pc.result = some (q.moveToActive x.token x.opts x.clock).1 := by
  unfold Queue.moveToActive
  cases hp : q.store.popBackPushFront .wait .active with
  | mk o s =>
    cases o with
    | some id =>
      obtain ⟨pc, hsolo, hres⟩ := solo_prepareJob x { q with store := s } id
      exact ⟨pc, Solo.head s (.popped id) (by simp only [fetchStep, hp]) hsolo, hres⟩
    | none =>
      have hstart : ∀ {u : InMemoryStore D R P} {pc : FetchPc D R P},
          Solo x s .noWaiting u pc → Solo x q.store .idle u pc :=
        fun h => Solo.head s .noWaiting (by simp only [fetchStep, hp]) h
      simp only [Queue.moveJobFromPriortyToActive]
      cases hset : s.popSet .prioritized true with
      | mk found s' =>
        cases found with
        | nil =>
          refine ⟨.delayUntil, hstart ?_, rfl⟩
          refine Solo.head s' .noPrioritized (by simp only [fetchStep, hset]) ?_
          exact Solo.head _ _ rfl (Solo.refl _ _ _)
        | cons e rest =>
          obtain ⟨pc, hsolo, hres⟩ := solo_prepareJob x
            { q with store := s'.addItem .active e.1 none true } e.1
          refine ⟨pc, hstart ?_, hres⟩
          refine Solo.head s' (.taken e.1) (by simp only [fetchStep, hset]) ?_
          exact Solo.head _ _ rfl hsolo

/-! ### The client -/

/-- The job being inserted, after its options have been checked. -/
structure Insertion (D R P : Type) where
  admission : Admission D R P
  prioCounter : ℕ
  id : ℕ
  name : String
  isPaused : Bool

/-- Where the client is in `insert`. -/
inductive InsertPc
  | start
  | placed (state event : JobState)
  | stored (event : JobState)
  | done
  deriving DecidableEq, Repr

def InsertPc.hasStored : InsertPc → Bool
  | .stored _ => true
  | .done => true
  | _ => false

def insertStep (p : Insertion D R P) (s : InMemoryStore D R P) :
    InsertPc → Option (InMemoryStore D R P × InsertPc)
  | .start =>
    let out := s.place p.admission p.prioCounter p.id p.isPaused
    some (out.2, .placed out.1.1 out.1.2)
  | .placed state event =>
    some (s.storeRecord p.id { p.admission.job with state, id := some p.id }, .stored event)
  | .stored event =>
    some (s.publishEvent (insertedEvent p.admission p.id p.name event), .done)
  | .done => none

/-- Without interruption the three steps of the client compose to `insert`. -/
theorem insertStep_solo (p : Insertion D R P) (s : InMemoryStore D R P) (job : Job D R P)
    (opts : JobOptions) (clock : Clock) (h : checkOptions job opts clock.utc = .ok p.admission) :
    ((insertStep p s .start).bind fun x => (insertStep p x.1 x.2).bind fun x =>
      (insertStep p x.1 x.2).map Prod.fst) =
      some (s.insert job opts p.prioCounter p.id p.name p.isPaused clock).2 := by
  simp only [InMemoryStore.insert, h, insertStep, Option.bind_some, Option.map_some]

/-! ### Client and workers -/

/-- The state of the interleaving. `returned` and `lost` list the ids that fetches have
handed to workers and those they have failed to find. -/
structure FreshState (D R P : Type) where
  store : InMemoryStore D R P
  client : InsertPc
  workers : ℕ → FetchPc D R P
  returned : List ℕ
  lost : List ℕ

inductive FreshAction
  | client
  | worker (k : ℕ) (x : FetchArgs)

namespace FreshState

def start (s : InMemoryStore D R P) : FreshState D R P := ⟨s, .start, fun _ => .idle, [], []⟩

/-- The ids that a step of a worker hands out, or fails to find. -/
def handedOut : FetchPc D R P → List ℕ
  | .returned id _ => [id]
  | _ => []

def failedToFind : FetchPc D R P → List ℕ
  | .notFound id => [id]
  | _ => []

def step (p : Insertion D R P) (σ : FreshState D R P) : FreshAction → Option (FreshState D R P)
  | .client => (insertStep p σ.store σ.client).map fun out =>
      { σ with store := out.1, client := out.2 }
  | .worker k x =>
    let out := fetchStep x σ.store (σ.workers k)
    some { σ with
      store := out.1
      workers := Function.update σ.workers k out.2
      returned := handedOut out.2 ++ σ.returned
      lost := failedToFind out.2 ++ σ.lost }

/-- The worker is between the pop of the id and the end of its fetch. -/
def Holds (id : ℕ) : FetchPc D R P → Prop
  | .popped i => i = id
  | .gotState i _ => i = id
  | .locked i _ => i = id
  | .found i _ => i = id
  | .absent i _ => i = id
  | .removed i _ => i = id
  | .located i _ => i = id
  | .stateSet i _ => i = id
  | .marked i => i = id
  | .tokenSet i => i = id
  | _ => False

/-- No fetch has failed to find the job, and if it is in the active list it has been
handed out or a worker is still fetching it. -/
def Unstranded (p : Insertion D R P) (σ : FreshState D R P) : Prop :=
  p.id ∉ σ.lost ∧
    (p.id ∈ σ.store.active.values → p.id ∈ σ.returned ∨ ∃ k, Holds p.id (σ.workers k))

/-- A worker looks for the record of the job only after the client has stored it. With the
cached pause flag set the look at the start is left out. -/
def AfterRecord (p : Insertion D R P) (σ : FreshState D R P) : FreshAction → Prop
  | .client => True
  | .worker k _ =>
    match σ.workers k with
    | .locked id _ =>
      id = p.id → σ.store.storedMetrics.queueIsPaused = false → σ.client.hasStored = true
    | .tokenSet id => id = p.id → σ.client.hasStored = true
    | _ => True

instance (p : Insertion D R P) (σ : FreshState D R P) (a : FreshAction) :
    Decidable (AfterRecord p σ a) := by
  cases a with
  | client => exact isTrue trivial
  | worker k x =>
    unfold AfterRecord
    simp only
    split <;> infer_instance

/-- The record is there from the second step of the client on. -/
def RecordInv (p : Insertion D R P) (σ : FreshState D R P) : Prop :=
  (σ.store.getJob p.id).isSome = σ.client.hasStored

theorem getJob_isSome_setFields (s : InMemoryStore D R P) (id : ℕ) (fields : List (JobField R))
    (n : ℕ) : ((s.setFields id fields).getJob n).isSome = (s.getJob n).isSome := by
  rw [getJob_setFields]
  split_ifs <;> simp

theorem getJob_isSome_fetchStep (x : FetchArgs) (s : InMemoryStore D R P) (pc : FetchPc D R P)
    (n : ℕ) : ((fetchStep x s pc).1.getJob n).isSome = (s.getJob n).isSome := by
  have hpop : ((s.popBackPushFront .wait .active).2.getJob n).isSome = (s.getJob n).isSome := by
    unfold popBackPushFront
    simp only
    split <;> rfl
  cases pc with
  | noWaiting =>
    simp only [fetchStep, popSet]
    split <;> rename_i h <;> rw [← (Prod.mk.inj h).2] <;> rfl
  | locked id prev =>
    simp only [fetchStep]
    split_ifs <;> rfl
  | absent id prev =>
    simp only [fetchStep]
    rw [getJob_removeItem _ _ _ (Queue.ofJobState_ne_job prev)]
  | located id prev => exact getJob_isSome_setFields _ _ _ _
  | marked id => exact getJob_isSome_setFields _ _ _ _
  | tokenSet id =>
    simp only [fetchStep]
    split <;> rfl
  | idle | delayUntil | returned id job | notFound id =>
    simp only [fetchStep]
    split <;> rename_i h <;> rw [h] at hpop <;> exact hpop
  | _ => rfl

theorem step_recordInv (p : Insertion D R P) (σ : FreshState D R P) (a : FreshAction)
    (τ : FreshState D R P) (h : RecordInv p σ) (hstep : step p σ a = some τ) : RecordInv p τ := by
  unfold RecordInv at h ⊢
  cases a with
  | worker k x =>
    obtain rfl := Option.some.inj hstep
    exact (getJob_isSome_fetchStep x σ.store (σ.workers k) p.id).trans h
  | client =>
    obtain ⟨out, hout, rfl⟩ := Option.map_eq_some_iff.mp hstep
    cases hc : σ.client with
    | start =>
      rw [hc] at hout h
      obtain rfl := Option.some.inj hout
      obtain ⟨-, -, hjob, -, -⟩ := σ.store.place_spec p.admission p.prioCounter p.id p.isPaused
      simp only [hjob]
      exact h
    | placed state event =>
      rw [hc] at hout
      obtain rfl := Option.some.inj hout
      simp [storeRecord, getJob, RecordMap.get_insertConstant, InsertPc.hasStored]
    | stored event =>
      rw [hc] at hout h
      obtain rfl := Option.some.inj hout
      exact h
    | done => simp [hc, insertStep] at hout

theorem mem_active_popBackPushFront (s : InMemoryStore D R P) {n : ℕ}
    (h : n ∈ (s.popBackPushFront .wait .active).2.active.values) :
    n ∈ s.active.values ∨ (s.popBackPushFront .wait .active).1 = some n := by
  revert h
  unfold popBackPushFront
  simp only
  split
  · simp only [ConcurrentDeque.values_pushFront, List.mem_cons, Option.some.injEq]
    tauto
  · exact fun h => Or.inl h

theorem mem_active_fetchStep (x : FetchArgs) (s : InMemoryStore D R P) (pc : FetchPc D R P)
    {n : ℕ} (h : n ∈ (fetchStep x s pc).1.active.values) :
    n ∈ s.active.values ∨ Holds n (fetchStep x s pc).2 := by
  have hpop := mem_active_popBackPushFront s (n := n)
  cases pc with
  | noWaiting =>
    left
    simp only [fetchStep, popSet] at h
    split at h <;> rename_i heq <;> rw [← (Prod.mk.inj heq).2] at h <;> exact h
  | taken id =>
    simp only [fetchStep, addItem, if_true, ConcurrentDeque.values_pushFront, List.mem_cons] at h
    rcases h with h | h
    · exact Or.inr h.symm
    · exact Or.inl h
  | locked id prev =>
    left
    simp only [fetchStep] at h
    split_ifs at h <;> exact h
  | absent id prev =>
    left
    have hcount := s.activeCount_removeItem (.ofJobState prev) id n
    have hpos := List.count_pos_iff.mpr h
    apply List.count_pos_iff.mp
    change 0 < s.activeCount n
    change 0 < (s.removeItem (.ofJobState prev) id).activeCount n at hpos
    rw [hcount] at hpos
    split_ifs at hpos
    · omega
    · exact hpos
  | removed id prev =>
    simp only [fetchStep, addItem, Bool.false_eq_true, if_false, ConcurrentDeque.values_pushBack,
      List.mem_append, List.mem_singleton] at h
    rcases h with h | h
    · exact Or.inl h
    · exact Or.inr h.symm
  | tokenSet id =>
    left
    simp only [fetchStep] at h
    split at h <;> exact h
  | idle | delayUntil | returned id job | notFound id =>
    simp only [fetchStep] at h ⊢
    cases hp : s.popBackPushFront .wait .active with
    | mk o t =>
      rw [hp] at hpop
      cases o with
      | none =>
        simp only [hp] at h
        rcases hpop h with h | h
        · exact Or.inl h
        · simp at h
      | some i =>
        simp only [hp] at h
        rcases hpop h with h | h
        · exact Or.inl h
        · exact Or.inr (Option.some.inj h)
  | _ => exact Or.inl h

theorem holds_fetchStep (x : FetchArgs) (s : InMemoryStore D R P) {pc : FetchPc D R P} {n : ℕ}
    (h : Holds n pc) :
    Holds n (fetchStep x s pc).2 ∨ n ∈ handedOut (fetchStep x s pc).2 ∨
      n ∈ failedToFind (fetchStep x s pc).2 := by
  cases pc with
  | locked id prev =>
    obtain rfl : id = n := h
    simp only [fetchStep]
    split_ifs <;> simp [Holds, handedOut, failedToFind]
  | found id prev =>
    obtain rfl : id = n := h
    simp only [fetchStep]
    split_ifs <;> simp [Holds]
  | tokenSet id =>
    obtain rfl : id = n := h
    simp only [fetchStep]
    split <;> simp [Holds, handedOut, failedToFind]
  | idle | noWaiting | noPrioritized | taken id | delayUntil | returned id job | notFound id =>
    exact h.elim
  | _ => exact Or.inl h

/-- A fetch fails to find a job only at one of its two looks at the record. -/
theorem failedToFind_fetchStep (x : FetchArgs) (s : InMemoryStore D R P) {pc : FetchPc D R P}
    {n : ℕ} (h : n ∈ failedToFind (fetchStep x s pc).2) :
    s.getJob n = none ∧ ((∃ prev, pc = .locked n prev ∧ s.storedMetrics.queueIsPaused = false) ∨
      pc = .tokenSet n) := by
  cases pc with
  | noWaiting =>
    simp only [fetchStep] at h
    split at h <;> simp [failedToFind] at h
  | locked id prev =>
    simp only [fetchStep] at h
    split_ifs at h with hp hex
    · simp [failedToFind] at h
    · simp [failedToFind] at h
    · obtain rfl : n = id := by simpa [failedToFind] using h
      exact ⟨by simpa [jobExists] using hex, Or.inl ⟨prev, rfl, by simpa using hp⟩⟩
  | found id prev =>
    simp only [fetchStep] at h
    split_ifs at h <;> simp [failedToFind] at h
  | tokenSet id =>
    simp only [fetchStep] at h
    split at h
    · simp [failedToFind] at h
    · next hnone =>
      obtain rfl : n = id := by simpa [failedToFind] using h
      exact ⟨hnone, Or.inr rfl⟩
  | idle | delayUntil | returned id job | notFound id =>
    simp only [fetchStep] at h
    split at h <;> simp [failedToFind] at h
  | _ => simp [fetchStep, failedToFind] at h

theorem mem_active_insertStep {p : Insertion D R P} {s : InMemoryStore D R P} {pc : InsertPc}
    {out : InMemoryStore D R P × InsertPc} (h : insertStep p s pc = some out) {n : ℕ}
    (hmem : n ∈ out.1.active.values) : n ∈ s.active.values := by
  cases pc with
  | start =>
    obtain rfl := Option.some.inj h
    obtain ⟨-, hsame, -, -, -⟩ := s.place_spec p.admission p.prioCounter p.id p.isPaused
    have hpos := List.count_pos_iff.mpr hmem
    apply List.count_pos_iff.mp
    change 0 < (s.place p.admission p.prioCounter p.id p.isPaused).2.activeCount n at hpos
    rw [hsame] at hpos
    exact hpos
  | placed state event =>
    obtain rfl := Option.some.inj h
    exact hmem
  | stored event =>
    obtain rfl := Option.some.inj h
    exact hmem
  | done => simp [insertStep] at h

theorem not_failedToFind_of_afterRecord {p : Insertion D R P} {σ : FreshState D R P} {k : ℕ}
    {x : FetchArgs} (hrec : RecordInv p σ) (hguard : AfterRecord p σ (.worker k x)) :
    p.id ∉ failedToFind (fetchStep x σ.store (σ.workers k)).2 := by
  intro hfail
  obtain ⟨hnone, hpc⟩ := failedToFind_fetchStep x σ.store hfail
  have hstored : σ.client.hasStored = true := by
    rcases hpc with ⟨prev, hpc, hp⟩ | hpc
    · simp only [AfterRecord, hpc] at hguard
      exact hguard trivial hp
    · simp only [AfterRecord, hpc] at hguard
      exact hguard trivial
  unfold RecordInv at hrec
  simp [hnone, hstored] at hrec

theorem step_unstranded (p : Insertion D R P) (σ : FreshState D R P) (a : FreshAction)
    (τ : FreshState D R P) (h : RecordInv p σ ∧ Unstranded p σ) (hguard : AfterRecord p σ a)
    (hstep : step p σ a = some τ) : RecordInv p τ ∧ Unstranded p τ := by
  refine ⟨step_recordInv p σ a τ h.1 hstep, ?_⟩
  obtain ⟨hrec, hlost, hact⟩ := h
  cases a with
  | client =>
    obtain ⟨out, hout, rfl⟩ := Option.map_eq_some_iff.mp hstep
    exact ⟨hlost, fun hmem => hact (mem_active_insertStep hout hmem)⟩
  | worker k x =>
    obtain rfl := Option.some.inj hstep
    have hfind := not_failedToFind_of_afterRecord hrec hguard
    constructor
    · intro hmem
      rcases List.mem_append.mp hmem with hmem | hmem
      · exact hfind hmem
      · exact hlost hmem
    · intro hmem
      have hself : Holds p.id (fetchStep x σ.store (σ.workers k)).2 →
          ∃ j, Holds p.id (Function.update σ.workers k (fetchStep x σ.store (σ.workers k)).2 j) :=
        fun hh => ⟨k, by rw [Function.update_self]; exact hh⟩
      rcases mem_active_fetchStep x σ.store (σ.workers k) hmem with hmem | hholds
      · rcases hact hmem with hret | ⟨j, hj⟩
        · exact Or.inl (List.mem_append_right _ hret)
        · by_cases hjk : j = k
          · subst hjk
            rcases holds_fetchStep x σ.store hj with hh | hh | hh
            · exact Or.inr (hself hh)
            · exact Or.inl (List.mem_append_left _ hh)
            · exact absurd hh hfind
          · refine Or.inr ⟨j, ?_⟩
            simp only [Function.update_of_ne hjk]
            exact hj
      · exact Or.inr (hself hholds)

/-- A look at the record before it is stored strands the job. -/
theorem stranded_of_not_afterRecord (p : Insertion D R P) (σ : FreshState D R P) (a : FreshAction)
    (h : RecordInv p σ) (hguard : ¬ AfterRecord p σ a) :
    ∃ τ, step p σ a = some τ ∧ ¬ Unstranded p τ := by
  cases a with
  | client => exact absurd trivial hguard
  | worker k x =>
    refine ⟨_, rfl, fun hun => hun.1 (List.mem_append_left _ ?_)⟩
    unfold RecordInv at h
    simp only [AfterRecord] at hguard
    split at hguard
    · next id prev hpc =>
      push Not at hguard
      obtain ⟨rfl, hp, hns⟩ := hguard
      have hex : σ.store.jobExists p.id = false := by
        rw [jobExists, h]
        simpa using hns
      simp [hpc, fetchStep, hp, hex, failedToFind]
    · next id hpc =>
      push Not at hguard
      obtain ⟨rfl, hns⟩ := hguard
      have hnone : σ.store.getJob p.id = none := by
        rw [← Option.isNone_iff_eq_none, ← Option.not_isSome, h]
        simpa using hns
      simp [hpc, fetchStep, hnone, failedToFind]
    · exact absurd trivial hguard

/-- A job with a fresh id is never stranded in just those runs in which no worker looks for
its record before the client has stored it. -/
theorem unstranded_iff_afterRecord (p : Insertion D R P) (s : InMemoryStore D R P)
    (hrecord : s.getJob p.id = none) (hactive : p.id ∉ s.active.values) (as : List FreshAction) :
    Always (step p) (Unstranded p) (start s) as ↔
      Guarded (step p) (AfterRecord p) (start s) as := by
  have hinv : RecordInv p (start s) := by
    simp [RecordInv, start, hrecord, InsertPc.hasStored]
  refine always_iff_guarded (step_recordInv p) (step_unstranded p) (fun _ h => h.2)
    (stranded_of_not_afterRecord p) ⟨hinv, ?_⟩ hinv as
  exact ⟨by simp [start], fun hmem => absurd hmem hactive⟩

/-! ### Two runs -/

def firstJob : Insertion Unit Unit Unit :=
  { admission := ⟨Job.new "a" (some ()) none none 0, 0, none⟩, prioCounter := 0, id := 1
    name := "a", isPaused := false }

def firstArgs : FetchArgs := ⟨⟨1, 1, 0⟩, {}, ⟨0, 0⟩⟩

/-- The worker pops the id at once, but looks for the record after the client is done. -/
def lateLook : List FreshAction :=
  [.client, .worker 0 firstArgs, .worker 0 firstArgs, .worker 0 firstArgs, .client, .client] ++
    List.replicate 8 (.worker 0 firstArgs)

theorem lateLook_unstranded :
    ((InMemoryStore.new none "mail" : InMemoryStore Unit Unit Unit).getJob firstJob.id = none ∧
      firstJob.id ∉ (InMemoryStore.new none "mail" : InMemoryStore Unit Unit Unit).active.values) ∧
      Always (step firstJob) (Unstranded firstJob) (start (.new none "mail")) lateLook :=
  ⟨⟨rfl, by decide⟩,
    (unstranded_iff_afterRecord firstJob (.new none "mail") rfl (by decide) lateLook).mpr
      (by decide +kernel)⟩

/-- The worker looks for the record before the client stores it. -/
def earlyLook : List FreshAction :=
  [.client, .worker 0 firstArgs, .worker 0 firstArgs, .worker 0 firstArgs, .worker 0 firstArgs,
    .client, .client]

/-- The fetch fails, and after both parties are done the id is in the active list and has
been handed to nobody. -/
theorem earlyLook_strands :
    (¬ Always (step firstJob) (Unstranded firstJob) (start (.new none "mail")) earlyLook) ∧
      (run (step firstJob) (start (.new none "mail")) earlyLook).map
        (fun σ => (σ.client, σ.lost, σ.store.active.values, σ.returned)) =
        some (.done, [1], [1], []) := by
  refine ⟨not_always_of_run (fun σ => decide (firstJob.id ∈ σ.lost)) (fun σ hσ hsafe => ?_)
    (by decide +kernel), by decide +kernel⟩
  exact hsafe.1 (of_decide_eq_true hσ)

end FreshState

end Kiomq
