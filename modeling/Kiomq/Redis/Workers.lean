import Kiomq.Queue.FailedDispatch
import Kiomq.Queue.Fleet
import Kiomq.Redis.FirstBatch

/-!
# Workers on Redis

Parties with any code over the interface of a store cannot tell the Redis store from the
in-memory store, in any order of their calls, as long as the calls are admitted. Workers that
poll a queue and finish their tasks make admitted calls under conditions on the run in memory:
locks have a duration, a finished job gets a score that is free, is listed once and is recorded
as active, and its follow-up sets no deadline and uses a free time. Then whole runs of the
workers are the same on both stores.
-/

namespace Kiomq

open Foundations Redis

variable {D R P : Type}

namespace GenericQueue

variable {g : GenericQueue} {clock : Clock} {s : InMemoryStore D R P}

abbrev Safe {α : Type} (clock : Clock) (p : StoreM D R P α) (s : InMemoryStore D R P) : Prop :=
  p.Admitted (InMemoryStore.perform clock) (Admits clock) s

section Rules

variable {α β : Type} {c : StoreCall R P}

theorem safe_call {f : StoreCall.Answer D c → StoreM D R P β} (hcall : Admits clock s c)
    {a : StoreCall.Answer D c} {t : InMemoryStore D R P}
    (hout : InMemoryStore.perform clock c s = (a, t)) (hnext : Safe clock (f a) t) :
    Safe clock (Procedure.call (I := storeInterface D R P) c >>= f) s := by
  refine (Procedure.admitted_call_bind _ _ _ _ _).mpr ⟨hcall, ?_⟩
  rw [hout]
  exact hnext

theorem safe_attempt {read : StoreCall.Answer D c → StoreResult α} {f : α → StoreM D R P β}
    (hcall : Admits clock s c) {a : α} (ha : read (InMemoryStore.perform clock c s).1 = .ok a)
    (hnext : Safe clock (f a) (InMemoryStore.perform clock c s).2) :
    Safe clock (Procedure.attempt (I := storeInterface D R P) c read >>= f) s := by
  refine (Procedure.admitted_attempt_bind _ _ _ _ _ _).mpr ⟨hcall, fun b hb => ?_⟩
  obtain rfl := Except.ok.inj (ha.symm.trans hb)
  exact hnext

theorem safe_last {read : StoreCall.Answer D c → StoreResult α} (hcall : Admits clock s c) :
    Safe clock (Procedure.attempt (I := storeInterface D R P) c read) s :=
  (Procedure.admitted_attempt _ _ _ _ _).mpr hcall

theorem Performs.safe_bind {q : Queue D R P} {p : StoreM D R P α} {f : α → StoreM D R P β}
    {out : KioResult α × Queue D R P} (hperforms : Performs clock p q out)
    (hp : Safe clock p q.store) (hnext : ∀ a, out.1 = .ok a → Safe clock (f a) out.2.store) :
    Safe clock (p >>= f) q.store := by
  refine (Procedure.admitted_bind _ _ _ _ _).mpr ⟨hp, fun a ha => ?_⟩
  have hexec : p.exec (InMemoryStore.perform clock) q.store = _ := hperforms
  rw [hexec] at ha ⊢
  obtain ⟨e | b, q'⟩ := out
  · cases ha
  · obtain rfl := Except.ok.inj ha
    exact hnext b rfl

end Rules

theorem admits_transitionFields {id : ℕ} (hid : (s.getJob id).isSome = true) (next : JobState)
    (value : Option (ProcessedResult R)) {ts : Option ℤ} (hts : ∀ t ∈ ts, t.natAbs < 2 ^ 64)
    (backtrace : Option Trace) :
    Admits clock s (.setFields id (Queue.transitionFields next value ts backtrace)) := by
  refine ⟨hid, by simp [Queue.transitionFields], ?_, ?_⟩
  · rcases backtrace with _ | trace <;> rcases value with _ | _ | _ <;> cases ts <;>
      simp [Queue.transitionFields, JobField.isBackTrace, List.countP_cons]
  · intro field hfield
    simp only [Queue.transitionFields, List.mem_append, List.mem_singleton] at hfield
    rcases hfield with (rfl | htrace) | hvalue
    · trivial
    · obtain ⟨trace, -, rfl⟩ := Option.map_eq_some_iff.mp (Option.mem_toList.mp htrace)
      trivial
    · cases value with
      | none => exact absurd hvalue List.not_mem_nil
      | some result =>
        rcases List.mem_cons.mp hvalue with rfl | htime
        · cases result <;> trivial
        · obtain ⟨t, ht, rfl⟩ := Option.map_eq_some_iff.mp (Option.mem_toList.mp htime)
          exact hts t ht

theorem safe_requireJob {id : ℕ} (hid : (s.getJob id).isSome = true) :
    Safe clock (requireJob id) s := by
  obtain ⟨job, hjob⟩ := Option.isSome_iff_exists.mp hid
  exact safe_call hid (congrArg (·, s) hjob) trivial

/-! ### Fetching -/

section Fetching

variable {q : Queue D R P}

theorem safe_moveJobToState (hg : g.Of q) (hpause : q.isPaused = false)
    (hevents : g.eventMode = .pubSub) {id : ℕ} {prev next : JobState} {ts : Option ℤ}
    (hts : ∀ t ∈ ts, t.natAbs < 2 ^ 64) (value : Option (ProcessedResult R))
    (backtrace : Option Trace)
    (hrelocate : q.store.jobExists id = true →
      Safe clock (relocate id prev next ts clock) q.store ∧
        ((Queue.relocate q.store id prev next ts clock).getJob id).isSome = true) :
    Safe clock (g.moveJobToState id prev next value ts backtrace clock) q.store := by
  unfold moveJobToState
  rw [hg.isPaused, hpause, if_neg (by simp)]
  refine safe_call trivial rfl ?_
  cases hexists : q.store.jobExists id with
  | false => exact trivial
  | true =>
    obtain ⟨hsafe, hkept⟩ := hrelocate hexists
    refine (performs_relocate q id prev next ts clock).safe_bind hsafe fun _ _ => ?_
    refine safe_attempt (a := ()) (admits_transitionFields hkept next value hts backtrace) rfl ?_
    exact safe_last hevents

theorem safe_moveJobToState_active (hg : g.Of q) (hpause : q.isPaused = false)
    (hevents : g.eventMode = .pubSub) {id : ℕ} (hid : id ∈ q.store.active.values)
    (prev : JobState) :
    Safe clock (g.moveJobToState id prev .active none none none clock) q.store := by
  refine safe_moveJobToState hg hpause hevents (by simp) none none fun hexists => ⟨?_, ?_⟩
  · have hin : q.store.active.containsValue id = true :=
      (q.store.active.containsValue_iff id).mpr hid
    unfold relocate
    dsimp only
    rw [if_neg (by decide)]
    refine safe_attempt (a := true) trivial (congrArg Except.ok hin) ?_
    exact trivial
  · rw [Queue.getJob_relocate_active]
    exact hexists

theorem safe_prepareJob (hg : g.Of q) (hpause : q.isPaused = false)
    (hevents : g.eventMode = .pubSub) {opts : WorkerOpts}
    (hlock : Keyspace.ValidTtl opts.lockDuration clock.instant)
    {id : ℕ} (hid : id ∈ q.store.active.values) (token : JobToken) :
    Safe clock (g.prepareJob token opts id clock) q.store := by
  refine safe_call trivial rfl ?_
  refine safe_attempt (a := ()) ⟨hlock, trivial⟩ rfl ?_
  let q' : Queue D R P := { q with
    store := q.store.setLock (.lock id) (some token) opts.lockDuration clock.instant }
  have hg' : g.Of q' := ⟨hg.isPaused, hg.backoff⟩
  have hpause' : q'.isPaused = false := hpause
  refine (performs_moveJobToState hg' id _ .active none none none clock).safe_bind
    (safe_moveJobToState_active hg' hpause' hevents hid _) fun _ hok => ?_
  have hexists : q'.store.jobExists id = true := by
    by_contra hmissing
    rw [Bool.not_eq_true] at hmissing
    rw [Queue.moveJobToState_missing hpause' hmissing] at hok
    cases hok
  obtain ⟨-, hkept⟩ := Queue.moveJobToState_active_of_exists hexists
    ((q.store.getState id).getD default) clock
  have htime : castUnsigned clock.utc.timestampMicros < 2 ^ 64 := by
    unfold castUnsigned
    omega
  refine safe_attempt (a := ()) ⟨hkept, by simp, by simp [JobField.isBackTrace], ?_⟩ rfl ?_
  · intro field hfield
    rcases List.mem_cons.mp hfield with rfl | hfield
    · trivial
    · obtain rfl := List.mem_singleton.mp hfield
      exact htime
  · refine safe_requireJob ?_
    have hset := InMemoryStore.getJob_setFields (q'.moveJobToState id
      ((q.store.getState id).getD default) .active none none none clock).2.store id
      [.token token, .processedOn (castUnsigned clock.utc.timestampMicros)] id
    rw [if_pos rfl] at hset
    exact (congrArg Option.isSome hset).trans (Option.isSome_map.trans hkept)

theorem safe_moveToActive (hg : g.Of q) (hpause : q.isPaused = false)
    (hevents : g.eventMode = .pubSub) {opts : WorkerOpts}
    (hlock : Keyspace.ValidTtl opts.lockDuration clock.instant)
    (token : JobToken) : Safe clock (g.moveToActive token opts clock) q.store := by
  have hpop : (q.store.popBackPushFront .wait .active).2.storedMetrics = q.store.storedMetrics := by
    simp only [InMemoryStore.popBackPushFront]
    split <;> rfl
  cases hout : q.store.popBackPushFront .wait .active with
  | mk found s =>
    rw [hout] at hpop
    refine safe_call ⟨rfl, rfl⟩ hout ?_
    let q' : Queue D R P := { q with store := s }
    have hg' : g.Of q' := hg.setStore hpop
    have hpause' : q'.isPaused = false := hg'.isPaused.symm.trans (hg.isPaused.trans hpause)
    cases found with
    | some id =>
      have hid : id ∈ s.active.values := by
        obtain ⟨waiting, -, rfl⟩ := InMemoryStore.popBackPushFront_cases hout
        exact (ConcurrentDeque.values_pushFront _ id).symm ▸ List.mem_cons_self
      refine (performs_prepareJob hg' token opts id clock).safe_bind
        (safe_prepareJob hg' hpause' hevents hlock hid token) fun _ _ => ?_
      exact trivial
    | none =>
      refine (performs_moveJobFromPriortyToActive q' clock).safe_bind ?_ fun found hfound => ?_
      · cases hentries : (s.popSet .prioritized true).1 with
        | nil =>
          refine safe_attempt rfl (congrArg Except.ok hentries) ?_
          exact safe_attempt (a := ()) trivial rfl trivial
        | cons entry entries =>
          refine safe_attempt rfl (congrArg Except.ok hentries) ?_
          exact safe_attempt (a := ()) trivial rfl trivial
      · cases hmove : q'.moveJobFromPriortyToActive with
        | mk popped q'' =>
          rw [hmove] at hfound
          obtain rfl := Except.ok.inj hfound
          cases popped with
          | none => exact trivial
          | some id =>
            obtain ⟨score, es, rest, -, rfl⟩ := Queue.moveJobFromPriortyToActive_cases hmove
            let t := ({ s with prioritized := rest }).addItem .active id none true
            have hg'' : g.Of { q with store := t } := hg.setStore hpop
            have hpause'' : ({ q with store := t } : Queue D R P).isPaused = false :=
              hg''.isPaused.symm.trans (hg.isPaused.trans hpause)
            have hid : id ∈ t.active.values :=
              (ConcurrentDeque.values_pushFront _ id).symm ▸ List.mem_cons_self
            refine (performs_prepareJob hg'' token opts id clock).safe_bind
              (safe_prepareJob hg'' hpause'' hevents hlock hid token) fun _ _ => ?_
            exact trivial

end Fetching

/-! ### Finishing -/

def outcomeScores (s : InMemoryStore D R P) : Except CaughtError R → OrderedMap ℕ ℕ
  | .ok _ => s.completed
  | .error _ => s.failed

/-- A job that is worked on, whose outcome gets a free score. -/
structure Finishable (s : InMemoryStore D R P) (id : ℕ) (returned : Except CaughtError R)
    (clock : Clock) : Prop where
  recorded : ∀ job ∈ s.getJob id, job.state = .active ∧ job.attemptsMade < 2 ^ 63 - 1
  once : s.active.values.count id ≤ 1
  score : AdmitsScore (outcomeScores s returned) id (some clock.utc.timestampMicros)

instance decidableFinishable (s : InMemoryStore D R P) (id : ℕ) (returned : Except CaughtError R)
    (clock : Clock) : Decidable (Finishable s id returned clock) :=
  decidable_of_iff
    ((∀ job ∈ s.getJob id, job.state = .active ∧ job.attemptsMade < 2 ^ 63 - 1) ∧
      s.active.values.count id ≤ 1 ∧
      AdmitsScore (outcomeScores s returned) id (some clock.utc.timestampMicros))
    ⟨fun h => ⟨h.1, h.2.1, h.2.2⟩, fun h => ⟨h.recorded, h.once, h.score⟩⟩

section Finishing

variable {q : Queue D R P}

theorem safe_relocate_finished {id : ℕ} {job : Job D R P} (hjob : s.getJob id = some job)
    (hmade : job.attemptsMade < 2 ^ 63 - 1) (honce : s.active.values.count id ≤ 1)
    {next : JobState} (hnext : next = .failed ∨ next = .completed) {ts : ℤ}
    (hscore : AdmitsAddition s id (some ts) (.ofJobState next)) :
    Safe clock (relocate id .active next (some ts) clock) s := by
  unfold relocate
  dsimp only
  rw [if_pos hnext]
  refine safe_attempt ⟨rfl, job, hjob, hmade⟩ rfl ?_
  refine safe_attempt (a := ()) honce rfl ?_
  refine safe_last ?_
  rcases hnext with rfl | rfl <;> exact hscore

theorem safe_moveJobToFinishedOrFailed (hg : g.Of q) (hpause : q.isPaused = false)
    (hevents : g.eventMode = .pubSub) {id : ℕ}
    (hrecorded : ∀ job ∈ q.store.getJob id, job.state = .active ∧ job.attemptsMade < 2 ^ 63 - 1)
    (honce : q.store.active.values.count id ≤ 1) {next : JobState}
    (hnext : next = .failed ∨ next = .completed) {ts : ℤ} (hts : ts.natAbs < 2 ^ 64)
    (hscore : AdmitsAddition q.store id (some ts) (.ofJobState next)) (token : JobToken)
    (processed : ProcessedResult R) (backtrace : Option Trace) :
    Safe clock (g.moveJobToFinishedOrFailed id ts token next processed backtrace clock)
      q.store := by
  have hprev : ∀ job ∈ q.store.getJob id, (q.store.getState id).getD default = .active := by
    intro job hjob
    rw [InMemoryStore.getState, Option.mem_def.mp hjob, Option.map_some, Option.getD_some]
    exact (hrecorded job hjob).1
  refine safe_call trivial rfl ?_
  refine (performs_moveJobToState hg id ((q.store.getState id).getD default) next (some processed)
    (some ts) backtrace clock).safe_bind ?_ fun _ hok => ?_
  · refine safe_moveJobToState hg hpause hevents (by simpa using hts) _ _ fun hexists => ?_
    obtain ⟨job, hjob⟩ := Option.isSome_iff_exists.mp hexists
    obtain ⟨-, -, hkept, -, -⟩ := Queue.relocate_finished q.store id
      ((q.store.getState id).getD default) next hnext (some ts) clock
    refine ⟨?_, ?_⟩
    · rw [hprev job hjob]
      exact safe_relocate_finished hjob (hrecorded job hjob).2 honce hnext hscore
    · rw [hkept id, if_pos rfl, hjob]
      rfl
  · refine safe_requireJob ?_
    cases hjob : q.store.getJob id with
    | none =>
      have hmissing : q.store.jobExists id = false := by simp [InMemoryStore.jobExists, hjob]
      rw [Queue.moveJobToState_missing hpause hmissing] at hok
      cases hok
    | some job =>
      have hexists : q.store.jobExists id = true := by simp [InMemoryStore.jobExists, hjob]
      have hfound := Queue.getJob_finishedStore hjob ts hnext processed backtrace clock id
      rw [Queue.finishedStore, (hrecorded job hjob).1, if_pos rfl] at hfound
      rw [Queue.moveJobToState_eq hpause hexists, hprev job hjob, hfound]
      rfl

theorem safe_moveFinished (hg : g.Of q) (hpause : q.isPaused = false)
    (hevents : g.eventMode = .pubSub) {job : Job D R P} {returned : Except CaughtError R}
    (h : Finishable q.store (job.id.getD 0) returned clock) (token : JobToken) :
    Safe clock (g.moveFinished job token returned clock) q.store := by
  have hts : clock.utc.timestampMicros.natAbs < 2 ^ 64 := by
    have hscore := h.score
    simp only [AdmitsScore] at hscore
    omega
  unfold moveFinished
  dsimp only
  cases job.getMetrics with
  | error e => exact trivial
  | ok metrics =>
    refine (Procedure.admitted_bind _ _ _ _ _).mpr ⟨trivial, fun found hfound => ?_⟩
    obtain rfl := Except.ok.inj hfound
    cases returned with
    | ok result =>
      refine (performs_moveJobToFinishedOrFailed hg _ _ token .completed _ none clock).safe_bind
        (safe_moveJobToFinishedOrFailed hg hpause hevents h.recorded h.once (.inr rfl) hts h.score
          token _ none) fun _ _ => ?_
      exact trivial
    | error err =>
      refine (performs_moveJobToFinishedOrFailed hg _ _ token .failed _ _ clock).safe_bind
        (safe_moveJobToFinishedOrFailed hg hpause hevents h.recorded h.once (.inl rfl) hts h.score
          token _ _) fun _ _ => ?_
      exact trivial

end Finishing

/-! ### Following up -/

def retryTime (g : GenericQueue) (opts : BackOffJobOptions) (attempts : ℕ) (clock : Clock) :
    Option ℤ :=
  ((BackOff.normalize (some opts)).bind fun opts =>
    g.backoff.calculate (some opts) (castSigned attempts) none).bind fun delay =>
      (clock.utc.addMillis delay).toOption.map Dt.timestampMillis

def nextAttempt (g : GenericQueue) (done : JobState × Job D R P) (entry : JobMeta D R P)
    (clock : Clock) : Option ℤ :=
  if done.1 = .completed then
    done.2.opts.repeat_.bind fun r =>
      (r.nextOccurrence g.backoff (predU64 done.2.attemptsMade) clock.utc).toOption.join
  else
    entry.job.opts.backoff.bind fun opts =>
      g.retryTime opts (predU64 done.2.attemptsMade) clock

/-- A retention policy that sets no deadline. -/
def KeepsUntimed : Option RemoveOnCompletionOrFailure → Prop
  | some (.opts keep) => keep.age = none
  | _ => True

instance decidableKeepsUntimed : ∀ policy, Decidable (KeepsUntimed policy)
  | some (.opts keep) => inferInstanceAs (Decidable (keep.age = none))
  | some (.bool _) | some (.int _) | none => inferInstanceAs (Decidable True)

/-- What follows a finished job, in the store in which its outcome has been recorded. -/
structure Followable (g : GenericQueue) (s : InMemoryStore D R P) (id : ℕ)
    (done : JobState × Job D R P) (entry : JobMeta D R P) (clock : Clock) : Prop where
  next : ∀ score ∈ g.nextAttempt done entry clock, AdmitsScore s.delayed id (some score)
  failed : s.failed.containsKey id = false
  removeOnComplete : KeepsUntimed entry.job.opts.removeOnComplete
  removeOnFail : KeepsUntimed entry.job.opts.removeOnFail
  counted : 1 ≤ s.processing ∧ s.processing + 1 < 2 ^ 63

instance decidableFollowable (g : GenericQueue) (s : InMemoryStore D R P) (id : ℕ)
    (done : JobState × Job D R P) (entry : JobMeta D R P) (clock : Clock) :
    Decidable (g.Followable s id done entry clock) :=
  decidable_of_iff
    ((∀ score ∈ g.nextAttempt done entry clock, AdmitsScore s.delayed id (some score)) ∧
      s.failed.containsKey id = false ∧ KeepsUntimed entry.job.opts.removeOnComplete ∧
      KeepsUntimed entry.job.opts.removeOnFail ∧ 1 ≤ s.processing ∧ s.processing + 1 < 2 ^ 63)
    ⟨fun h => ⟨h.1, h.2.1, h.2.2.1, h.2.2.2.1, h.2.2.2.2⟩,
      fun h => ⟨h.next, h.failed, h.removeOnComplete, h.removeOnFail, h.counted⟩⟩

section FollowingUp

variable {q : Queue D R P} {id : ℕ}

theorem safe_cleanUpJob {removeOptions : Option RemoveOnCompletionOrFailure}
    (h : KeepsUntimed removeOptions) : Safe clock (cleanUpJob id removeOptions) s := by
  unfold cleanUpJob
  rcases removeOptions with _ | removeImmediately | maxToKeep | keep
  · trivial
  · dsimp only
    split_ifs
    · exact safe_last trivial
    · trivial
  · dsimp only
    split_ifs
    · exact safe_last trivial
    · trivial
  · obtain ⟨age, count⟩ := keep
    obtain rfl : age = none := h
    refine (Procedure.admitted_bind _ _ _ _ _).mpr ⟨trivial, fun _ _ => ?_⟩
    split_ifs
    · exact safe_last trivial
    · trivial

theorem safe_retryFailed {opts : BackOffJobOptions} {attempts : ℕ}
    (hnext : ∀ score ∈ g.retryTime opts attempts clock, AdmitsScore s.delayed id (some score))
    (hfailed : s.failed.containsKey id = false) :
    Safe clock (g.retryFailed id opts attempts clock) s := by
  unfold retryTime at hnext
  unfold retryFailed
  dsimp only
  cases hdelay : ((BackOff.normalize (some opts)).bind fun opts =>
      g.backoff.calculate (some opts) (castSigned attempts) none) with
  | none => trivial
  | some delay =>
    dsimp only
    rw [hdelay, Option.bind_some] at hnext
    cases htime : clock.utc.addMillis delay with
    | error e => exact trivial
    | ok time =>
      rw [htime] at hnext
      refine (Procedure.admitted_bind _ _ _ _ _).mpr ⟨trivial, fun found hfound => ?_⟩
      obtain rfl := Except.ok.inj hfound
      refine safe_attempt (a := ()) (hnext _ rfl) rfl ?_
      exact safe_last hfailed

theorem safe_followUp {done : JobState × Job D R P} {entry : JobMeta D R P}
    (h : g.Followable s id done entry clock) :
    Safe clock (g.followUp id done.1 done.2 entry clock) s := by
  have hnext := h.next
  unfold nextAttempt at hnext
  unfold followUp
  split_ifs with hstate
  · rw [if_pos hstate] at hnext
    unfold repeatOrCleanUp
    split_ifs with hleft
    · cases hrepeat : done.2.opts.repeat_ with
      | none => trivial
      | some r =>
        rw [hrepeat, Option.bind_some] at hnext
        dsimp only [retryJob]
        cases hoccurs : r.nextOccurrence g.backoff (predU64 done.2.attemptsMade) clock.utc with
        | error e => exact trivial
        | ok found =>
          rw [hoccurs] at hnext
          refine (Procedure.admitted_bind _ _ _ _ _).mpr ⟨trivial, fun found' hfound => ?_⟩
          obtain rfl := Except.ok.inj hfound
          cases found with
          | none => trivial
          | some score =>
            dsimp only
            split_ifs
            · exact safe_last trivial
            · exact safe_last (hnext score rfl)
    · exact safe_cleanUpJob h.removeOnComplete
  · rw [if_neg hstate] at hnext
    refine (Procedure.admitted_bind _ _ _ _ _).mpr ⟨?_, fun _ _ => ?_⟩
    · unfold retryWhileLeft
      split_ifs
      · cases hbackoff : entry.job.opts.backoff with
        | none => trivial
        | some opts =>
          rw [hbackoff, Option.bind_some] at hnext
          exact safe_retryFailed hnext h.failed
      · trivial
    · split_ifs
      · exact safe_cleanUpJob h.removeOnFail
      · trivial

theorem safe_updateProcessingCount (hevents : g.eventMode = .pubSub) {increment : Bool}
    (hpos : increment = false → 1 ≤ s.processing) (hsmall : s.processing + 1 < 2 ^ 63)
    (workerId : Uuid) (state : JobState) :
    Safe clock (g.updateProcessingCount increment workerId id state) s := by
  refine safe_attempt (a := (s.incr .metaKey (if increment then 1 else -1)
    (some .processing)).1) ?_ rfl ?_
  · cases increment with
    | true =>
      change 0 ≤ (s.processing : ℤ) + 1 ∧ (s.processing : ℤ) + 1 < 2 ^ 63
      omega
    | false =>
      have hone := hpos rfl
      change 0 ≤ (s.processing : ℤ) + -1 ∧ (s.processing : ℤ) + -1 < 2 ^ 63
      omega
  · refine safe_attempt (a := ()) hevents rfl ?_
    exact (Procedure.admitted_call _ _ _ _).mpr trivial

theorem safe_settleFinished (hevents : g.eventMode = .pubSub) {done : JobState × Job D R P}
    {entry : Option (JobMeta D R P)} (hg : g.backoff = q.backoff)
    (h : ∀ e ∈ entry, g.Followable q.store id done e clock) (workerId : Uuid) :
    Safe clock (g.settleFinished id workerId entry clock done) q.store := by
  cases entry with
  | none => trivial
  | some e =>
    have hentry := h e rfl
    refine (performs_followUp hg id done.1 done.2 e clock).safe_bind (safe_followUp hentry)
      fun _ _ => ?_
    obtain ⟨t, ht, hfollowed⟩ := q.followUp_spec id done.1 done.2 e clock
    rw [ht]
    have hprocessing : t.processing = q.store.processing := hfollowed.flags.processing
    unfold releaseTask
    cases e.handle with
    | none => trivial
    | some handle =>
      refine (Procedure.admitted_bind _ _ _ _ _).mpr ⟨?_, fun _ _ => trivial⟩
      have hcounted := hentry.counted
      exact safe_updateProcessingCount hevents (fun _ => by rw [hprocessing]; exact hcounted.1)
        (by rw [hprocessing]; exact hcounted.2) workerId done.1

end FollowingUp

end GenericQueue

/-! ### Whole runs -/

namespace Fleet

open GenericQueue

variable {g : GenericQueue} {w : System D R P}

/-- Once the outcome of a task is recorded, what follows is performed alike. -/
def FollowableAfter (g : GenericQueue) (entry : Option (JobMeta D R P)) (id : ℕ) (clock : Clock) :
    KioResult (JobState × Job D R P) × Queue D R P → Prop
  | (.ok done, q) => ∀ e ∈ entry, g.Followable q.store id done e clock
  | (.error _, _) => True

/-- The actions of the workers that both stores perform alike. -/
def Regular (g : GenericQueue) (w : System D R P) : Action D R → Prop
  | .poll _ opts clock =>
    Keyspace.ValidTtl opts.lockDuration clock.instant ∧ w.queue.store.processing + 1 < 2 ^ 63
  | .storeHandle _ _ => True
  | .finish i returned clock =>
    ∀ task ∈ w.tasks[i]?,
      Finishable w.queue.store task.jobId returned clock ∧
        FollowableAfter g (w.queue.jobsInProgress.get? task.jobId) task.jobId clock
          (w.queue.moveFinished task.job task.token returned clock)
  | _ => False

instance decidableFollowableAfter (g : GenericQueue) (entry : Option (JobMeta D R P)) (id : ℕ)
    (clock : Clock) : ∀ out : KioResult (JobState × Job D R P) × Queue D R P,
      Decidable (FollowableAfter g entry id clock out)
  | (.ok done, q) =>
    inferInstanceAs (Decidable (∀ e ∈ entry, g.Followable q.store id done e clock))
  | (.error _, _) => inferInstanceAs (Decidable True)

instance decidableRegular (g : GenericQueue) (w : System D R P) :
    ∀ a : Action D R, Decidable (Regular g w a)
  | .poll _ opts clock =>
    inferInstanceAs (Decidable (Keyspace.ValidTtl opts.lockDuration clock.instant ∧
      w.queue.store.processing + 1 < 2 ^ 63))
  | .finish i returned clock =>
    inferInstanceAs (Decidable (∀ task ∈ w.tasks[i]?,
      Finishable w.queue.store task.jobId returned clock ∧
        FollowableAfter g (w.queue.jobsInProgress.get? task.jobId) task.jobId clock
          (w.queue.moveFinished task.job task.token returned clock)))
  | .storeHandle _ _ => inferInstanceAs (Decidable True)
  | .addBulk _ _ | .pauseOrResume | .getMetrics | .registerTimer _ | .promote _ _ _ | .expire _
  | .deliver _ => inferInstanceAs (Decidable False)

/-- The calls of a regular action are answered alike by both stores. -/
theorem Regular.admitted {a : Action D R} (hg : g.Of w.queue) (hpause : w.queue.isPaused = false)
    (hevents : g.eventMode = .pubSub) (h : Regular g w a) :
    AdmittedStep g InMemoryStore.perform Admits (ofSystem w) a := by
  cases a with
  | poll token opts clock =>
    obtain ⟨hlock, hsmall⟩ := h
    refine ⟨safe_moveToActive hg hpause hevents hlock token, fun job s hexec id _ => ?_⟩
    have hmove : (g.moveToActive token opts clock).exec (InMemoryStore.perform clock)
        (ofSystem w).store = _ := performs_moveToActive hg token opts clock
    have hflags := (w.queue.sameFlags_moveToActive token opts clock).processing
    obtain rfl : (w.queue.moveToActive token opts clock).2.store = s :=
      congrArg Prod.snd (hmove.symm.trans hexec)
    refine safe_updateProcessingCount hevents (fun hfalse => ?_) ?_ token.worker job.state
    · cases hfalse
    · rw [hflags]
      exact hsmall
  | finish i returned clock =>
    intro task htask
    obtain ⟨hfinish, hfollow⟩ := h task htask
    refine ⟨safe_moveFinished hg hpause hevents hfinish task.token, fun done s hexec => ?_⟩
    have hmove : (g.moveFinished task.job task.token returned clock).exec
        (InMemoryStore.perform clock) (ofSystem w).store = _ :=
      performs_moveFinished hg task.job task.token returned clock
    have hkeeps := (moveFinished_keeps w.queue task.job task.token returned clock).1
    have hresult := hmove.symm.trans hexec
    generalize w.queue.moveFinished task.job task.token returned clock = out
      at hkeeps hresult hfollow
    obtain ⟨e | found, q⟩ := out
    · cases hresult
    · obtain ⟨rfl, rfl⟩ : found = done ∧ q.store = s := by
        simpa [KioResult.toStore] using hresult
      exact safe_settleFinished hevents (hg.backoff.trans hkeeps.symm) hfollow task.token.worker
  | _ => trivial

variable {T : CaseTable} {st : RedisStore} {codec : RedisCodec D R P}

open RecordRun RedisStore

def mailSystem : System String String ℕ where
  queue := ((Queue.new newMail (some mailOpts) 7).bulkAdd twoMails mailClock).2
  collector := Collector.new.registerQueue 7
  tasks := []

def mailFleet : Fleet String String ℕ (Keyspace (QueueStreamEvent String ℕ)) where
  store := (mailStore.addBulk .ascii mailCodec mailOpts twoMails .pubSub false mailClock
    newMailKeyspace).2
  jobsInProgress := .empty
  tasks := []

theorem mailFleet_matches :
    Matches (Mirrors .ascii mailStore mailCodec 0) (ofSystem mailSystem) mailFleet := by
  have hopen : Mirrors .ascii mailStore mailCodec 0
      (Queue.new newMail (some mailOpts) 7).store newMailKeyspace :=
    (mirrors_newMail 0).writeStore (fun suffix slot hm => by cases suffix <;> exact hm) rfl rfl
  have hbatch : InMemoryStore.AcceptableBatch mailCodec mailOpts mailClock
      (Queue.new newMail (some mailOpts) 7).store twoMails :=
    ⟨mail_acceptable rfl (by decide) _, mail_acceptable rfl (by decide) _, trivial⟩
  have hfixed : CaseTable.ascii.Fixed (mailStore.keyPrefix.toList ++ mailStore.name.toList) := by
    decide
  obtain ⟨-, hmirrors⟩ := addBulk_agrees hfixed rfl rfl hbatch hopen
  have hzero : (Queue.new newMail (some mailOpts) 7).store.idCounter = 0 := rfl
  rw [hzero, Nat.zero_add] at hmirrors
  exact ⟨hmirrors, rfl, rfl⟩

def mailGeneric : GenericQueue := ⟨false, .pubSub, .new⟩

def mailRedisCodec : RedisCodec String String ℕ where
  job := mailCodec
  event := { EventCodec.orderCodec with progress := mailCodec.progress }
  idText := []

end Fleet

end Kiomq
