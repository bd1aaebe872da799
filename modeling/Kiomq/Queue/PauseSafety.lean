import Kiomq.Foundations.Runs
import Kiomq.Queue.Frames
import Kiomq.Queue.System
import Kiomq.Stores.Holdings
import Kiomq.Worker.FollowUp

/-!
# No fetch while the queue is paused

Pausing empties the wait list and sets the flag of the store, but a fetch looks at
neither flag: it takes what lies in the wait list or in the prioritized set. The
cached flag that additions consult is not refreshed. So a pause is respected exactly
as long as nothing reaches these two collections while it lasts.
-/

namespace Kiomq

open Foundations

variable {D R P : Type}

namespace InMemoryStore

/-- There is nothing that a fetch could take. -/
def Drained (s : InMemoryStore D R P) : Prop :=
  s.waiting.values = [] ∧ s.prioritized.entries = []

/-- The pause flag is the same, and a drained store stays drained. -/
structure Quiet (s t : InMemoryStore D R P) : Prop where
  isPaused : t.isPaused = s.isPaused
  drained : s.Drained → t.Drained

theorem Quiet.refl (s : InMemoryStore D R P) : Quiet s s := ⟨rfl, id⟩

theorem Quiet.trans {s t u : InMemoryStore D R P} (h : Quiet s t) (h' : Quiet t u) : Quiet s u :=
  ⟨h'.isPaused.trans h.isPaused, fun hd => h'.drained (h.drained hd)⟩

theorem quiet_publishEvent (s : InMemoryStore D R P) (event : QueueStreamEvent R P) :
    Quiet s (s.publishEvent event) := ⟨rfl, id⟩

theorem quiet_setFields (s : InMemoryStore D R P) (id : ℕ) (fields : List (JobField R)) :
    Quiet s (s.setFields id fields) := ⟨rfl, fun h => h⟩

theorem quiet_removeItem (s : InMemoryStore D R P) (col : CollectionSuffix) (i : ℕ) :
    Quiet s (s.removeItem col i) := by
  refine ⟨by cases col <;> rfl, ?_⟩
  rintro ⟨hwait, hprio⟩
  cases col with
  | wait =>
    refine ⟨?_, hprio⟩
    have hnil : s.waiting.data.entries = [] := List.map_eq_nil_iff.mp hwait
    simp [removeItem, ConcurrentDeque.filter, ConcurrentDeque.values, OrderedMap.values, hnil]
  | prioritized =>
    refine ⟨hwait, ?_⟩
    simp only [removeItem, removeScored]
    split_ifs <;> simp [OrderedMap.remove, hprio]
  | _ => exact ⟨hwait, hprio⟩

theorem quiet_addItem (s : InMemoryStore D R P) {col : CollectionSuffix} (i : ℕ)
    (score : Option ℤ) (append : Bool) (hwait : col ≠ .wait) (hprio : col ≠ .prioritized) :
    Quiet s (s.addItem col i score append) := by
  cases col with
  | wait => exact absurd rfl hwait
  | prioritized => exact absurd rfl hprio
  | _ => exact ⟨rfl, id⟩

/-- A new job that is not dispatchable: it has a delay, or it goes to the paused list. -/
def withheld (isPaused : Bool) (queueOpts : QueueOpts) (now : Dt) (item : NewJob D) : Bool :=
  let opts := updateJobOpts queueOpts (item.2.1.getD {})
  let hasDelay :=
    match opts.delay.asDiffMs now with
    | .ok ms => decide (0 < castUnsigned ms)
    | .error _ => true
  hasDelay || (isPaused && decide (opts.priority = 0))

theorem isPaused_place (s : InMemoryStore D R P) (a : Admission D R P) (pc id : ℕ)
    (isPaused : Bool) : (s.place a pc id isPaused).2.isPaused = s.isPaused := by
  unfold place
  cases a.expected <;> split_ifs <;> simp [(sameFlags_addItem _ _ _ _ _).isPaused]

theorem quiet_place (s : InMemoryStore D R P) (a : Admission D R P) (pc id : ℕ) (isPaused : Bool)
    (h : 0 < a.delay ∨ (isPaused = true ∧ a.job.opts.priority = 0)) :
    Quiet s (s.place a pc id isPaused).2 := by
  by_cases hd : 0 < a.delay
  · cases he : a.expected with
    | none =>
      simp only [place, if_pos hd, he]
      exact Quiet.refl s
    | some t =>
      simp only [place, if_pos hd, he]
      exact s.quiet_addItem id _ false (by simp) (by simp)
  · obtain ⟨rfl, hp⟩ := h.resolve_left hd
    simp only [place, if_neg hd, hp, lt_irrefl, if_false, if_true]
    exact s.quiet_addItem id none true (by simp) (by simp)

theorem isPaused_addOne (s : InMemoryStore D R P) (item : NewJob D) (queueOpts : QueueOpts)
    (isPaused : Bool) (clock : Clock) :
    (s.addOne item queueOpts isPaused clock).2.isPaused = s.isPaused := by
  obtain ⟨pc, counter, heq⟩ := s.addOne_eq item queueOpts isPaused clock
  rw [heq]
  unfold InMemoryStore.insert
  split
  · rfl
  · exact isPaused_place _ _ _ _ _

theorem quiet_addOne (s : InMemoryStore D R P) (item : NewJob D) (queueOpts : QueueOpts)
    (isPaused : Bool) (clock : Clock) (h : withheld isPaused queueOpts clock.utc item = true) :
    Quiet s (s.addOne item queueOpts isPaused clock).2 := by
  obtain ⟨pc, counter, heq⟩ := s.addOne_eq item queueOpts isPaused clock
  rw [heq]
  unfold InMemoryStore.insert
  split
  · exact ⟨rfl, id⟩
  · next a hcheck =>
    obtain ⟨ms, -, hms, hdelay, -, -⟩ := checkOptions_cases hcheck
    obtain ⟨hopts, -, -⟩ := checkOptions_spec hcheck
    have hplace : 0 < a.delay ∨ (isPaused = true ∧ a.job.opts.priority = 0) := by
      simpa [withheld, hms, hdelay, hopts] using h
    have hq := quiet_place { s with priorityCounter := counter, idCounter := s.idCounter + 1 } a pc
      (s.idCounter + 1) isPaused hplace
    exact ⟨hq.isPaused, hq.drained⟩

theorem isPaused_addBulk (s : InMemoryStore D R P) (items : List (NewJob D))
    (queueOpts : QueueOpts) (isPaused : Bool) (clock : Clock) :
    (s.addBulk items queueOpts isPaused clock).2.isPaused = s.isPaused := by
  refine addBulk_keeps (motive := fun t => t.isPaused = s.isPaused) ?_ rfl
  intro item _ t ht
  rw [isPaused_addOne, ht]

theorem quiet_addBulk (s : InMemoryStore D R P) (items : List (NewJob D)) (queueOpts : QueueOpts)
    (isPaused : Bool) (clock : Clock)
    (h : ∀ item ∈ items, withheld isPaused queueOpts clock.utc item = true) :
    Quiet s (s.addBulk items queueOpts isPaused clock).2 := by
  refine addBulk_keeps (motive := Quiet s) ?_ (Quiet.refl s)
  intro item hitem t ht
  exact ht.trans (t.quiet_addOne item queueOpts isPaused clock (h item hitem))

/-- Pausing drains the wait list; the prioritized set stays as it is. -/
theorem pause_true_spec (s : InMemoryStore D R P) :
    (s.pause true).isPaused = true ∧ (s.pause true).waiting.values = [] ∧
      (s.pause true).prioritized = s.prioritized := by
  exact ⟨rfl, (ConcurrentDeque.drainInto_len s.waiting s.paused).1, rfl⟩

end InMemoryStore

namespace Queue

open InMemoryStore

theorem moveToActive_drained {q : Queue D R P} (h : q.store.Drained) (token : JobToken)
    (opts : WorkerOpts) (clock : Clock) :
    q.moveToActive token opts clock = (.ok (.delayUntil 0), q) := by
  obtain ⟨hwait, hprio⟩ := h
  have hnil : q.store.waiting.data.entries = [] := List.map_eq_nil_iff.mp hwait
  have hpop : q.store.popBackPushFront .wait .active = (none, q.store) := by
    simp [popBackPushFront, ConcurrentDeque.popBack, OrderedMap.back?, hnil]
  have hset : q.moveJobFromPriortyToActive = (none, q) := by
    simp [moveJobFromPriortyToActive, popSet, popScored, OrderedMap.front?, hprio,
      InMemoryStore.remove]
  simp only [moveToActive, hpop]
  rw [show ({ q with store := q.store } : Queue D R P) = q from rfl, hset]

theorem quiet_moveJobToState_failed (q : Queue D R P) (id : ℕ) (prev : JobState)
    (value : Option (ProcessedResult R)) (ts : Option ℤ) (backtrace : Option Trace)
    (clock : Clock) :
    Quiet q.store (q.moveJobToState id prev .failed value ts backtrace clock).2.store := by
  unfold moveJobToState
  split_ifs
  · exact Quiet.refl _
  · exact Quiet.refl _
  · have hrel : Quiet q.store (relocate q.store id prev .failed ts clock) := by
      unfold relocate
      rw [if_pos (Or.inl rfl)]
      have hincr : Quiet q.store (q.store.incr (.job id) 1 (some .attemptsMade)).2 :=
        ⟨rfl, fun h => h⟩
      refine (hincr.trans (quiet_removeItem _ _ _)).trans (quiet_addItem _ _ _ _ ?_ ?_) <;>
        simp [CollectionSuffix.ofJobState]
    exact (hrel.trans (quiet_setFields _ _ _)).trans (quiet_publishEvent _ _)

theorem quiet_failMissed (q : Queue D R P) (dateTime : Dt) (clock : Clock) (id : ℕ) :
    Quiet q.store (q.failMissed dateTime clock id).store := by
  have hfinish : ∀ (q : Queue D R P) (ts : ℤ) (token : JobToken) (processed : ProcessedResult R),
      Quiet q.store
        (q.moveJobToFinishedOrFailed id ts token .failed processed none clock).2.store := by
    intro q ts token processed
    have hmove := q.quiet_moveJobToState_failed id ((q.store.getState id).getD default)
      (some processed) (some ts) none clock
    rw [moveJobToFinishedOrFailed_snd]
    exact hmove
  have htoken : Quiet q.store (q.store.getToken id clock.instant).2 := ⟨rfl, fun h => h⟩
  exact htoken.trans (hfinish { q with store := (q.store.getToken id clock.instant).2 } _ _ _)

theorem quiet_promoteJobs (q : Queue D R P) (c : Collector) (dateTime : Dt) (intervalMs : ℤ)
    (clock : Clock) : Quiet q.store (q.promoteJobs c dateTime intervalMs clock).2.1.store := by
  have hfold : ∀ (missed : List ℕ) (q : Queue D R P), Quiet q.store
      (missed.foldl (fun q jobId => q.failMissed dateTime clock jobId) q).store := by
    intro missed
    induction missed with
    | nil => exact fun q => Quiet.refl _
    | cons id missed ih =>
      intro q
      exact (q.quiet_failMissed dateTime clock id).trans (ih _)
  unfold promoteJobs
  split_ifs
  · exact Quiet.refl _
  · split
    · exact Quiet.refl _
    · next until_ _ =>
      have htake : Quiet q.store
          (q.store.getDelayedAt dateTime.timestampMillis until_.timestampMillis).2 :=
        ⟨rfl, fun h => h⟩
      exact htake.trans (hfold _ { q with
        store := (q.store.getDelayedAt dateTime.timestampMillis until_.timestampMillis).2 })

def fetched : KioResult (MoveToActiveResult D R P) → Bool
  | .ok (.processJob _) => true
  | _ => false

end Queue

namespace System

open InMemoryStore

def PauseSafe (w : System D R P) : Prop :=
  w.queue.store.isPaused = true → ∀ token opts clock,
    Queue.fetched (w.queue.moveToActive token opts clock).1 = false

/-- The conditions on the steps: a queue is paused only while nothing is prioritized, and
during a pause only jobs that are withheld are added, no promotion is delivered and no
task finishes. -/
def RespectsPause (w : System D R P) : Action D R → Prop
  | .pauseOrResume => w.queue.store.isPaused = false → w.queue.store.prioritized.entries = []
  | .addBulk items clock =>
    w.queue.store.isPaused = true →
      ∀ item ∈ items, withheld w.queue.isPaused w.queue.opts clock.utc item = true
  | .deliver _ => w.queue.store.isPaused = false
  | .finish _ _ _ => w.queue.store.isPaused = false
  | _ => True

instance (w : System D R P) (a : Action D R) : Decidable (w.RespectsPause a) := by
  cases a <;> unfold RespectsPause <;> infer_instance

def PauseInv (w : System D R P) : Prop :=
  w.queue.store.isPaused = true → w.queue.store.Drained

theorem PauseInv.of_unpaused {w : System D R P} (h : w.queue.store.isPaused = false) :
    PauseInv w := by
  intro hp
  simp [h] at hp

theorem PauseInv.of_quiet {w w' : System D R P} (h : PauseInv w)
    (hq : Quiet w.queue.store w'.queue.store) : PauseInv w' := by
  intro hp
  exact hq.drained (h (hq.isPaused ▸ hp))

theorem PauseInv.pauseSafe {w : System D R P} (h : PauseInv w) : PauseSafe w := by
  intro hp token opts clock
  rw [Queue.moveToActive_drained (h hp)]
  rfl

theorem pauseOrResume_pauseInv {w : System D R P}
    (hguard : w.queue.store.isPaused = false → w.queue.store.prioritized.entries = []) :
    PauseInv { w with queue := w.queue.pauseOrResume } := by
  cases hold : w.queue.store.isPaused with
  | true =>
    -- this is the resuming direction
    have hresumed : w.queue.pauseOrResume.store.isPaused = false := by
      simp [Queue.pauseOrResume, Queue.getMetrics, InMemoryStore.getMetrics, hold, pause,
        publishEvent]
    exact .of_unpaused hresumed
  | false =>
    obtain ⟨-, hwait, hprio⟩ := pause_true_spec w.queue.getMetrics.2.store
    have hpause : (!w.queue.getMetrics.1.isPaused) = true := by
      simp [Queue.getMetrics, InMemoryStore.getMetrics, hold]
    simp only [Queue.pauseOrResume, hpause]
    refine fun _ => ⟨hwait, ?_⟩
    change (w.queue.getMetrics.2.store.pause true).prioritized.entries = []
    rw [hprio]
    exact hguard hold

theorem poll_pauseInv {w : System D R P} (h : PauseInv w) (token : JobToken) (opts : WorkerOpts)
    (clock : Clock) : PauseInv (w.poll token opts clock) := by
  cases hp : w.queue.store.isPaused with
  | true =>
    have heq : w.poll token opts clock = w := by
      simp [poll, Queue.getNextJob, Queue.moveToActive_drained (h hp)]
    rw [heq]
    exact h
  | false =>
    have hmove := (w.queue.sameFlags_moveToActive token opts clock).isPaused
    have hout : (w.poll token opts clock).queue.store.isPaused = false := by
      unfold poll Queue.getNextJob
      simp only [Bool.false_eq_true, if_false]
      cases hm : w.queue.moveToActive token opts clock with
      | mk res q =>
        rw [hm] at hmove
        cases res with
        | error e => exact hmove.trans hp
        | ok r =>
          cases r with
          | processJob job =>
            simp only [dispatch]
            split <;> exact hmove.trans hp
          | _ => exact hmove.trans hp
    exact .of_unpaused hout

theorem step_pauseInv (w : System D R P) (a : Action D R) (w' : System D R P) (h : PauseInv w)
    (hguard : w.RespectsPause a) (hstep : w.step a = some w') : PauseInv w' := by
  cases a with
  | addBulk items clock =>
    obtain rfl := Option.some.inj hstep
    cases hp : w.queue.store.isPaused with
    | true => exact h.of_quiet (quiet_addBulk _ items _ _ clock (hguard hp))
    | false =>
      have hsame := w.queue.store.isPaused_addBulk items w.queue.opts w.queue.isPaused clock
      exact .of_unpaused (hsame.trans hp)
  | pauseOrResume =>
    obtain rfl := Option.some.inj hstep
    exact pauseOrResume_pauseInv hguard
  | getMetrics =>
    obtain rfl := Option.some.inj hstep
    exact h
  | poll token opts clock =>
    obtain rfl := Option.some.inj hstep
    exact poll_pauseInv h token opts clock
  | storeHandle jobId handle =>
    obtain rfl := Option.some.inj hstep
    exact h
  | finish i returned clock =>
    obtain ⟨task, -, rfl⟩ := Option.map_eq_some_iff.mp hstep
    have hsame := w.queue.isPaused_processJob task.job task.token task.token.worker returned clock
    exact .of_unpaused (hsame.trans hguard)
  | registerTimer timer =>
    simp only [step] at hstep
    split at hstep
    · simp at hstep
    · obtain rfl := Option.some.inj hstep
      exact h
  | promote dateTime intervalMs clock =>
    obtain rfl := Option.some.inj hstep
    exact h.of_quiet (w.queue.quiet_promoteJobs w.collector dateTime intervalMs clock)
  | expire i =>
    obtain ⟨c, -, rfl⟩ := Option.map_eq_some_iff.mp hstep
    exact h
  | deliver i =>
    simp only [step] at hstep
    split at hstep
    · obtain rfl := Option.some.inj hstep
      exact .of_unpaused hguard
    · simp at hstep

/-- From any unpaused queue: in a run that respects the pauses no fetch during a pause
returns a job. -/
theorem pause_safe_of_respected (w : System D R P) (as : List (Action D R))
    (hstart : w.queue.store.isPaused = false) (h : Guarded step RespectsPause w as) :
    Always step PauseSafe w as := by
  exact always_of_invariant step_pauseInv (fun _ hw => hw.pauseSafe) (.of_unpaused hstart) h

def freshMail : System Unit Unit Unit := init none "mail" none 7 .new

/-- A delayed job is added, the queue is paused, a worker polls, a second delayed job is
added and the due jobs are promoted; the timer expires and the queue is resumed. -/
def respectedPause : List (Action Unit Unit) :=
  [.addBulk [("a", some { delay := .timeMilis 100 }, ())] ⟨0, 0⟩, .pauseOrResume,
    .poll ⟨1, 1, 0⟩ {} ⟨10000, 10⟩, .addBulk [("b", some { delay := .timeMilis 500 }, ())] ⟨0, 0⟩,
    .promote 100000 50 ⟨100000, 100⟩, .expire 0, .pauseOrResume, .deliver 0]

theorem respectedPause_safe :
    (freshMail.queue.store.isPaused = false ∧ Guarded step RespectsPause freshMail respectedPause) ∧
      Always step PauseSafe freshMail respectedPause :=
  ⟨⟨rfl, by decide +kernel⟩,
    pause_safe_of_respected freshMail respectedPause rfl (by decide +kernel)⟩

/-- The worker's view of a fetch at the end of a run during a pause. -/
def fetchesWhilePaused (w : System Unit Unit Unit) : Bool :=
  w.queue.store.isPaused && Queue.fetched (w.queue.moveToActive ⟨1, 1, 0⟩ {} ⟨200000, 200⟩).1

theorem fetchesWhilePaused_not_pauseSafe (w : System Unit Unit Unit)
    (h : fetchesWhilePaused w = true) : ¬ PauseSafe w := by
  intro hsafe
  rw [fetchesWhilePaused, Bool.and_eq_true] at h
  have hnone := hsafe h.1 ⟨1, 1, 0⟩ {} ⟨200000, 200⟩
  simp [hnone] at h

/-- A paused queue hands out a prioritized job, a job added during the pause, and a delayed
job promoted during the pause. -/
theorem paused_queue_dispatches :
    (¬ Always step PauseSafe freshMail
      [.addBulk [("a", some { priority := 1 }, ())] ⟨0, 0⟩, .pauseOrResume]) ∧
    (¬ Always step PauseSafe freshMail
      [.pauseOrResume, .addBulk [("a", none, ())] ⟨0, 0⟩]) ∧
    ¬ Always step PauseSafe freshMail
      [.addBulk [("a", some { delay := .timeMilis 100 }, ())] ⟨0, 0⟩, .pauseOrResume,
        .promote 100000 50 ⟨100000, 100⟩, .expire 0, .deliver 0] :=
  ⟨not_always_of_run _ fetchesWhilePaused_not_pauseSafe (by decide +kernel),
    not_always_of_run _ fetchesWhilePaused_not_pauseSafe (by decide +kernel),
    not_always_of_run _ fetchesWhilePaused_not_pauseSafe (by decide +kernel)⟩

end System

end Kiomq
