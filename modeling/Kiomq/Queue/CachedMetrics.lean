import Kiomq.Foundations.Runs
import Kiomq.Queue.PauseSafety

/-!
# The cached metrics

A queue shares its cached metrics with the store, which refreshes them with every event that
it publishes, as `get_metrics` does. A refresh copies every field but the pause flag, which
keeps the value that it had when the queue was opened. So a refreshed cache is a mirror of
the store just if the store has the flag that is cached, and `pause_or_resume`, which
refreshes the cache before and after it changes the flag, always breaks the mirror.
-/

namespace Kiomq

open Foundations

variable {D R P : Type}

namespace QueueMetrics

theorem update_eq_iff (self other : QueueMetrics) :
    self.update other = other ↔ self.isPaused = other.isPaused := by
  constructor
  · intro h
    have hflag := congrArg QueueMetrics.isPaused h
    exact hflag
  · intro h
    obtain ⟨⟩ := other
    simp only [update] at h ⊢
    rw [h]

end QueueMetrics

inductive StoreWrite (D R P : Type)
  | addItem (col : CollectionSuffix) (item : ℕ) (score : Option ℤ) (append : Bool)
  | removeItem (col : CollectionSuffix) (item : ℕ)
  | remove (key : CollectionSuffix)
  | popSet (col : CollectionSuffix) (min : Bool)
  | popBackPushFront (src dst : CollectionSuffix)
  | getDelayedAt (start stop : ℤ)
  | existsIn (col : CollectionSuffix) (item now : ℕ)
  | getToken (id now : ℕ)
  | setLock (col : CollectionSuffix) (token : Option JobToken) (lockDuration now : ℕ)
  | setFields (id : ℕ) (fields : List (JobField R))
  | updateJobProgress (job : Job D R P) (value : P)
  | expire (col : CollectionSuffix) (secs : ℤ) (now : ℕ)
  | incr (key : CollectionSuffix) (delta : ℤ) (hashKey : Option HashField)
  | clearCollections
  | clearJobs
  | pause (pause : Bool)
  | publishEvent (event : QueueStreamEvent R P)
  | addBulk (items : List (InMemoryStore.NewJob D)) (queueOpts : QueueOpts) (isPaused : Bool)
      (clock : Clock)
  | addBulkOnly (items : List (InMemoryStore.NewJob D)) (queueOpts : QueueOpts) (isPaused : Bool)
      (clock : Clock)

namespace StoreWrite

def apply (s : InMemoryStore D R P) : StoreWrite D R P → InMemoryStore D R P
  | addItem col item score append => s.addItem col item score append
  | removeItem col item => s.removeItem col item
  | remove key => s.remove key
  | popSet col min => (s.popSet col min).2
  | popBackPushFront src dst => (s.popBackPushFront src dst).2
  | getDelayedAt start stop => (s.getDelayedAt start stop).2
  | existsIn col item now => (s.existsIn col item now).2
  | getToken id now => (s.getToken id now).2
  | setLock col token lockDuration now => s.setLock col token lockDuration now
  | setFields id fields => s.setFields id fields
  | updateJobProgress job value => (s.updateJobProgress job value).2
  | expire col secs now => s.expire col secs now
  | incr key delta hashKey => (s.incr key delta hashKey).2
  | clearCollections => s.clearCollections
  | clearJobs => s.clearJobs
  | pause b => s.pause b
  | publishEvent event => s.publishEvent event
  | addBulk items queueOpts isPaused clock => (s.addBulk items queueOpts isPaused clock).2
  | addBulkOnly items queueOpts isPaused clock => (s.addBulkOnly items queueOpts isPaused clock).2

end StoreWrite

namespace InMemoryStore

def Refreshed (s : InMemoryStore D R P) : Prop :=
  s.storedMetrics.update s.getMetrics = s.storedMetrics

theorem refreshed_publishEvent (s : InMemoryStore D R P) (event : QueueStreamEvent R P) :
    (s.publishEvent event).Refreshed := rfl

theorem Refreshed.mirrors_iff {s : InMemoryStore D R P} (h : s.Refreshed) :
    s.storedMetrics = s.getMetrics ↔ s.storedMetrics.isPaused = s.isPaused := by
  have hupdate := s.storedMetrics.update_eq_iff s.getMetrics
  rw [h] at hupdate
  exact hupdate

@[simp] theorem isPaused_pause (s : InMemoryStore D R P) (b : Bool) :
    (s.pause b).isPaused = b := by
  cases b <;> rfl

@[simp] theorem storedMetrics_pause (s : InMemoryStore D R P) (b : Bool) :
    (s.pause b).storedMetrics = s.storedMetrics := by
  cases b <;> rfl

/-- The store `t` is seen right after a refresh; both pause flags are those of `s`. -/
structure SeenFrom (s t : InMemoryStore D R P) : Prop where
  refreshed : t.Refreshed
  cached : t.storedMetrics.isPaused = s.storedMetrics.isPaused
  flag : t.isPaused = s.isPaused

theorem SeenFrom.mirrors_iff {s t : InMemoryStore D R P} (h : SeenFrom s t) :
    t.storedMetrics = t.getMetrics ↔ s.storedMetrics.isPaused = s.isPaused := by
  rw [h.refreshed.mirrors_iff, h.cached, h.flag]

/-! ### Adding jobs -/

theorem seenFrom_addOne {s t : InMemoryStore D R P} {item : NewJob D} {queueOpts : QueueOpts}
    {isPaused : Bool} {clock : Clock} {job : Job D R P}
    (h : s.addOne item queueOpts isPaused clock = (.ok job, t)) : SeenFrom s t := by
  have hflag := s.isPaused_addOne item queueOpts isPaused clock
  rw [h] at hflag
  rcases s.addOne_spec item queueOpts isPaused clock with ⟨e, counter, heq⟩ | ⟨job', t', heq, hnew⟩
  · simp [heq] at h
  · obtain ⟨-, rfl⟩ := Prod.mk.inj (heq.symm.trans h)
    refine ⟨?_, hnew.cached, hflag⟩
    obtain ⟨pc, counter, hinsert⟩ := s.addOne_eq item queueOpts isPaused clock
    rw [hinsert] at h
    unfold InMemoryStore.insert at h
    split at h
    · simp at h
    · obtain ⟨-, rfl⟩ := Prod.mk.inj h
      exact refreshed_publishEvent _ _

/-- The stores after the events of a batch, one for each accepted job. -/
def addBulkSeen (s : InMemoryStore D R P) (items : List (NewJob D)) (queueOpts : QueueOpts)
    (isPaused : Bool) (clock : Clock) : List (InMemoryStore D R P) :=
  match items with
  | [] => []
  | item :: rest =>
    match s.addOne item queueOpts isPaused clock with
    | (.error _, _) => []
    | (.ok _, t) => t :: addBulkSeen t rest queueOpts isPaused clock

theorem seenFrom_addBulkSeen {s t : InMemoryStore D R P} {items : List (NewJob D)}
    {queueOpts : QueueOpts} {isPaused : Bool} {clock : Clock}
    (h : t ∈ s.addBulkSeen items queueOpts isPaused clock) : SeenFrom s t := by
  induction items generalizing s with
  | nil => cases h
  | cons item rest ih =>
    cases hout : s.addOne item queueOpts isPaused clock with
    | mk res u =>
      cases res with
      | error e => simp [addBulkSeen, hout] at h
      | ok job =>
        have hone := seenFrom_addOne hout
        simp only [addBulkSeen, hout, List.mem_cons] at h
        rcases h with rfl | h
        · exact hone
        · have hrest := ih h
          exact ⟨hrest.refreshed, hrest.cached.trans hone.cached, hrest.flag.trans hone.flag⟩

end InMemoryStore

/-- The stores right after each refresh that an operation makes. -/
def StoreWrite.seen (s : InMemoryStore D R P) : StoreWrite D R P → List (InMemoryStore D R P)
  | .publishEvent event => [s.publishEvent event]
  | .addBulk items queueOpts isPaused clock => s.addBulkSeen items queueOpts isPaused clock
  | .addBulkOnly items queueOpts isPaused clock => s.addBulkSeen items queueOpts isPaused clock
  | _ => []

theorem StoreWrite.seenFrom_seen {s t : InMemoryStore D R P} {op : StoreWrite D R P}
    (h : t ∈ op.seen s) : InMemoryStore.SeenFrom s t := by
  cases op with
  | publishEvent event =>
    obtain rfl := List.mem_singleton.mp h
    exact ⟨s.refreshed_publishEvent event, rfl, rfl⟩
  | addBulk items queueOpts isPaused clock => exact InMemoryStore.seenFrom_addBulkSeen h
  | addBulkOnly items queueOpts isPaused clock => exact InMemoryStore.seenFrom_addBulkSeen h
  | _ => cases h

/-! ### Runs -/

/-- What clients, workers and timers do to the queue and its store. -/
inductive CacheAction (D R P : Type)
  | store (op : StoreWrite D R P)
  | pauseOrResume
  | getMetrics

structure CacheRun (D R P : Type) where
  queue : Queue D R P
  seen : List (InMemoryStore D R P)

namespace CacheRun

def start (queue : Queue D R P) : CacheRun D R P := ⟨queue, []⟩

def step (w : CacheRun D R P) : CacheAction D R P → Option (CacheRun D R P)
  | .store op => some ⟨{ w.queue with store := op.apply w.queue.store }, op.seen w.queue.store⟩
  | .pauseOrResume =>
    -- it asks for the metrics first and publishes an event last
    some ⟨w.queue.pauseOrResume, [w.queue.getMetrics.2.store, w.queue.pauseOrResume.store]⟩
  | .getMetrics => some ⟨w.queue.getMetrics.2, [w.queue.getMetrics.2.store]⟩

/-- After each refresh every field of the cache is that of a snapshot of the store. -/
def Mirrors (w : CacheRun D R P) : Prop := ∀ s ∈ w.seen, s.storedMetrics = s.getMetrics

/-- The action does not refresh the cache, or it does so while the store has the pause flag
that is cached. -/
def KeepsFlag (w : CacheRun D R P) : CacheAction D R P → Prop
  | .store op => op.seen w.queue.store ≠ [] → w.queue.isPaused = w.queue.store.isPaused
  | .pauseOrResume => False
  | .getMetrics => w.queue.isPaused = w.queue.store.isPaused

theorem seenFrom_getMetrics (q : Queue D R P) :
    InMemoryStore.SeenFrom q.store q.getMetrics.2.store := ⟨rfl, rfl, rfl⟩

/-- The event of `pause_or_resume` finds the cached flag as it was and the other flag of the
store. -/
theorem pauseOrResume_mirrors_iff (q : Queue D R P) :
    q.pauseOrResume.store.storedMetrics = q.pauseOrResume.store.getMetrics ↔
      q.isPaused = !q.store.isPaused := by
  have hfresh : q.pauseOrResume.store.Refreshed := InMemoryStore.refreshed_publishEvent _ _
  have hcached : q.pauseOrResume.store.storedMetrics.isPaused = q.isPaused := by
    have hpause := congrArg QueueMetrics.isPaused
      (q.getMetrics.2.store.storedMetrics_pause (!q.getMetrics.1.isPaused))
    exact hpause
  have hflag : q.pauseOrResume.store.isPaused = !q.store.isPaused :=
    q.getMetrics.2.store.isPaused_pause (!q.getMetrics.1.isPaused)
  rw [hfresh.mirrors_iff, hcached, hflag]

/-- One action: the cache mirrors the store after all its refreshes just if the flag is
kept. -/
theorem mirrors_step_iff {w t : CacheRun D R P} {a : CacheAction D R P} (h : w.step a = some t) :
    t.Mirrors ↔ w.KeepsFlag a := by
  cases a with
  | store op =>
    obtain rfl := Option.some.inj h
    constructor
    · intro hmirrors hne
      obtain ⟨s, hs⟩ := List.exists_mem_of_ne_nil _ hne
      exact (StoreWrite.seenFrom_seen hs).mirrors_iff.mp (hmirrors s hs)
    · intro hkeeps s hs
      exact (StoreWrite.seenFrom_seen hs).mirrors_iff.mpr (hkeeps (List.ne_nil_of_mem hs))
  | pauseOrResume =>
    obtain rfl := Option.some.inj h
    simp only [Mirrors, List.forall_mem_cons, KeepsFlag, iff_false]
    rintro ⟨hbefore, hafter, -⟩
    rw [(seenFrom_getMetrics w.queue).mirrors_iff] at hbefore
    rw [pauseOrResume_mirrors_iff] at hafter
    have hflag : w.queue.store.isPaused = !w.queue.store.isPaused := hbefore.symm.trans hafter
    exact (Bool.not_eq_self _).mp hflag.symm
  | getMetrics =>
    obtain rfl := Option.some.inj h
    simp only [Mirrors, List.forall_mem_singleton, KeepsFlag]
    exact (seenFrom_getMetrics w.queue).mirrors_iff

/-- Along every run the cache mirrors the store after each refresh just if each refresh finds
the store with the pause flag that is cached. -/
theorem mirrors_iff_keepsFlag (q : Queue D R P) (as : List (CacheAction D R P)) :
    Always step Mirrors (start q) as ↔ Guarded step KeepsFlag (start q) as := by
  apply always_iff_guarded (I := Mirrors) (J := fun _ => True)
  · intros
    trivial
  · intro w a t _ hkeeps ht
    exact (mirrors_step_iff ht).mpr hkeeps
  · exact fun w h => h
  · intro w a _ hnot
    obtain ⟨t, ht⟩ : ∃ t, w.step a = some t := by
      cases a <;> exact ⟨_, rfl⟩
    exact ⟨t, ht, fun hmirrors => hnot ((mirrors_step_iff ht).mp hmirrors)⟩
  · simp [Mirrors, start]
  · trivial

/-- Pausing a queue and asking for its metrics leaves it with a cached flag that is off. -/
theorem pausedQueue_not_mirrored :
    let q : Queue Unit Unit Unit := Queue.new (.new none "mail") none 1
    ¬ Always step Mirrors (start q) [.pauseOrResume, .getMetrics] ∧
      (run step (start q) [.pauseOrResume, .getMetrics]).map
        (fun w => (w.queue.isPaused, w.queue.store.isPaused)) = some (false, true) := by
  constructor
  · apply not_always_of_run fun w =>
      w.seen.any fun s => decide (s.storedMetrics ≠ s.getMetrics)
    · intro w hbad hmirrors
      obtain ⟨s, hs, hne⟩ := List.any_eq_true.mp hbad
      exact of_decide_eq_true hne (hmirrors s hs)
    · decide +kernel
  · decide +kernel

end CacheRun

end Kiomq
