import Kiomq.Foundations.Parties
import Kiomq.Foundations.Runs
import Kiomq.Queue.Metrics

/-!
# Waking the workers

Workers park themselves when the flag `pause_workers` is set: they load the flag, mark
themselves idle and create a `notified()` future, in three operations. A call that
resumes them loads the flag, notifies the futures that exist at that moment and clears
the flag. A notification stores no permit, and later calls notify only while the flag is
set. So a worker that registers after the notification of a call that still clears the
flag is not woken again.
-/

namespace Kiomq

open Foundations

inductive ParkPc
  | active
  | checked
  | idle
  | waiting
  deriving DecidableEq, Repr

inductive SignalPc
  | started
  | initial
  | judging
  | pausing
  | resuming
  | loaded (workersPaused : Bool)
  | notifying
  | clearing
  | returned
  deriving DecidableEq, Repr

/-- A call judges the cached metrics, or a snapshot of its own. -/
structure SignalCall where
  own : Option QueueMetrics
  pc : SignalPc
  deriving DecidableEq

structure WakeState where
  signal : WorkerSignal
  metrics : QueueMetrics
  workers : List ParkPc
  calls : List SignalCall

/-- The callers: `resume_workers`, an event that is published, and the timer that collects
metrics, which has its own snapshot and its own `is_initial` cell. -/
inductive WakeAction
  | resume
  | publish
  | collect (updated : QueueMetrics)
  | update (updated : QueueMetrics)
  | call (k : ℕ)
  | worker (i : ℕ)

namespace WakeState

def start (signal : WorkerSignal) (metrics : QueueMetrics) (n : ℕ) : WakeState :=
  ⟨signal, metrics, List.replicate n .active, []⟩

/-- `notify_waiters` wakes the futures that have been created. -/
def notifyWaiters (workers : List ParkPc) : List ParkPc :=
  workers.map fun w => if w = .waiting then .active else w

def callStep (signal : WorkerSignal) (metrics : QueueMetrics) (workers : List ParkPc) :
    SignalPc → Option (WorkerSignal × List ParkPc × SignalPc)
  | .started =>
    if signal.isInitial then some (signal, workers, .initial) else some (signal, workers, .judging)
  | .initial => some ({ signal with isInitial := false }, workers, .returned)
  | .judging =>
    if metrics.isIdle then some (signal, workers, .pausing) else some (signal, workers, .resuming)
  | .pausing => some ({ signal with pauseWorkers := true }, workers, .returned)
  | .resuming => some (signal, workers, .loaded signal.pauseWorkers)
  | .loaded workersPaused =>
    if metrics.queueHasWork && workersPaused then some (signal, workers, .notifying)
    else some (signal, workers, .returned)
  | .notifying => some (signal, notifyWaiters workers, .clearing)
  | .clearing => some ({ signal with pauseWorkers := false }, workers, .returned)
  | .returned => none

/-- The next operation of a worker; one that waits has to be woken. -/
def parkStep (pauseWorkers : Bool) : ParkPc → Option ParkPc
  | .active => some (if pauseWorkers then .checked else .active)
  | .checked => some .idle
  | .idle => some .waiting
  | .waiting => none

def step (σ : WakeState) : WakeAction → Option WakeState
  | .resume => some { σ with calls := σ.calls ++ [⟨none, .resuming⟩] }
  | .publish => some { σ with calls := σ.calls ++ [⟨none, .started⟩] }
  | .collect updated => some { σ with calls := σ.calls ++ [⟨some updated, .judging⟩] }
  | .update updated => some { σ with metrics := σ.metrics.update updated }
  | .call k =>
    σ.calls[k]?.bind fun c =>
      (callStep σ.signal (c.own.getD σ.metrics) σ.workers c.pc).map fun out =>
        { σ with
          signal := out.1
          workers := out.2.1
          calls := σ.calls.set k { c with pc := out.2.2 } }
  | .worker i =>
    σ.workers[i]?.bind fun w => (parkStep σ.signal.pauseWorkers w).map fun w' =>
      { σ with workers := σ.workers.set i w' }

def callAlone (metrics : QueueMetrics) (c : WorkerSignal × List ParkPc × SignalPc) (_ : Unit) :
    Option (WorkerSignal × List ParkPc × SignalPc) :=
  callStep c.1 metrics c.2.1 c.2.2

/-- Without interruption the operations of a call compose to `pause_or_resume_workers`. -/
theorem callAlone_pauseOrResumeWorkers (metrics : QueueMetrics) (signal : WorkerSignal)
    (workers : List ParkPc) :
    ∃ k workers', run (callAlone metrics) (signal, workers, .started) (List.replicate k ()) =
      some (pauseOrResumeWorkers metrics signal, workers', .returned) := by
  obtain ⟨flag, initial⟩ := signal
  cases initial with
  | true =>
    refine ⟨2, workers, ?_⟩
    simp [run, callAlone, callStep, pauseOrResumeWorkers, List.replicate]
  | false =>
    by_cases hidle : metrics.isIdle = true
    · refine ⟨3, workers, ?_⟩
      simp [run, callAlone, callStep, pauseOrResumeWorkers, hidle, List.replicate]
    · by_cases hwork : metrics.queueHasWork = true ∧ flag = true
      · obtain ⟨hwork, rfl⟩ := hwork
        refine ⟨6, notifyWaiters workers, ?_⟩
        simp [run, callAlone, callStep, pauseOrResumeWorkers, resumeHelper, hidle, hwork,
          List.replicate]
      · refine ⟨4, workers, ?_⟩
        simp [run, callAlone, callStep, pauseOrResumeWorkers, resumeHelper, hidle, hwork,
          List.replicate]

/-- A worker waits although the flag is off and jobs are waiting, and nobody is about to
notify it. -/
def LostWakeUp (σ : WakeState) : Prop :=
  .waiting ∈ σ.workers ∧ σ.signal.pauseWorkers = false ∧ 0 < σ.metrics.waiting ∧
    ∀ c ∈ σ.calls, c.pc ≠ .notifying

instance (σ : WakeState) : Decidable σ.LostWakeUp := by
  unfold LostWakeUp
  infer_instance

/-- A call notifies only while no worker is between its load of the flag and its
registration, and a worker loads a set flag only while no call is between its
notification and the clearing of the flag. -/
def Ordered (σ : WakeState) : WakeAction → Prop
  | .call k =>
    ∀ c ∈ σ.calls[k]?, c.pc = .notifying → ∀ w ∈ σ.workers, w ≠ .checked ∧ w ≠ .idle
  | .worker i =>
    σ.workers[i]? = some .active → σ.signal.pauseWorkers = true → ∀ c ∈ σ.calls, c.pc ≠ .clearing
  | _ => True

instance (σ : WakeState) (a : WakeAction) : Decidable (σ.Ordered a) := by
  cases a with
  | call k =>
    unfold Ordered
    simp only
    infer_instance
  | worker i =>
    unfold Ordered
    simp only
    infer_instance
  | _ => exact isTrue trivial

/-- While a call is about to clear the flag all workers are active, and a worker that is
not active has a flag to wait for. -/
structure Inv (σ : WakeState) : Prop where
  clearing : ∀ c ∈ σ.calls, c.pc = .clearing → ∀ w ∈ σ.workers, w = .active
  flagged : ∀ w ∈ σ.workers, w ≠ .active → σ.signal.pauseWorkers = true

theorem Inv.not_lost {σ : WakeState} (h : σ.Inv) : ¬ σ.LostWakeUp := by
  rintro ⟨hwait, hflag, -, -⟩
  have hset := h.flagged .waiting hwait (by decide)
  rw [hflag] at hset
  simp at hset

theorem Inv.begin {σ : WakeState} (h : σ.Inv) {c : SignalCall} (hc : c.pc ≠ .clearing) :
    Inv { σ with calls := σ.calls ++ [c] } where
  clearing := by
    apply forall_mem_concat h.clearing
    exact fun hpc => absurd hpc hc
  flagged := h.flagged

theorem Inv.call {σ : WakeState} (h : σ.Inv) {c : SignalCall} {k : ℕ} {signal : WorkerSignal}
    (hflag : (∀ w ∈ σ.workers, w = .active) ∨
      (σ.signal.pauseWorkers = true → signal.pauseWorkers = true)) (hc : c.pc ≠ .clearing) :
    Inv { σ with signal := signal, calls := σ.calls.set k c } where
  clearing := by
    intro d hd hpc
    rcases List.mem_or_eq_of_mem_set hd with hd | rfl
    · exact h.clearing d hd hpc
    · exact absurd hpc hc
  flagged := by
    intro w hw hne
    rcases hflag with hall | hkeep
    · exact absurd (hall w hw) hne
    · exact hkeep (h.flagged w hw hne)

theorem notifyWaiters_active {workers : List ParkPc}
    (h : ∀ w ∈ workers, w ≠ .checked ∧ w ≠ .idle) : ∀ w ∈ notifyWaiters workers, w = .active := by
  intro w hw
  obtain ⟨v, hv, rfl⟩ := List.mem_map.mp hw
  obtain ⟨hchecked, hidle⟩ := h v hv
  cases v with
  | active | waiting => rfl
  | checked => exact absurd rfl hchecked
  | idle => exact absurd rfl hidle

theorem call_inv {σ τ : WakeState} {k : ℕ} (h : σ.Inv) (hord : σ.Ordered (.call k))
    (hstep : σ.step (.call k) = some τ) : τ.Inv := by
  obtain ⟨c, hk, hstep⟩ := Option.bind_eq_some_iff.mp hstep
  obtain ⟨out, hout, rfl⟩ := Option.map_eq_some_iff.mp hstep
  have hmem := List.mem_of_getElem? hk
  cases hpc : c.pc with
  | started | judging | loaded b =>
    simp only [hpc, callStep] at hout
    split_ifs at hout <;> obtain rfl := Option.some.inj hout <;>
      exact h.call (Or.inr id) (by simp)
  | initial | pausing | resuming =>
    rw [hpc] at hout
    obtain rfl := Option.some.inj hout
    exact h.call (Or.inr fun hset => by first | exact hset | rfl) (by simp)
  | notifying =>
    rw [hpc] at hout
    obtain rfl := Option.some.inj hout
    have hall := notifyWaiters_active (hord c hk hpc)
    exact ⟨fun _ _ _ => hall, fun w hw hne => absurd (hall w hw) hne⟩
  | clearing =>
    rw [hpc] at hout
    obtain rfl := Option.some.inj hout
    exact h.call (Or.inl (h.clearing c hmem hpc)) (by simp)
  | returned => simp [hpc, callStep] at hout

theorem worker_inv {σ τ : WakeState} {i : ℕ} (h : σ.Inv) (hord : σ.Ordered (.worker i))
    (hstep : σ.step (.worker i) = some τ) : τ.Inv := by
  obtain ⟨w, hi, hstep⟩ := Option.bind_eq_some_iff.mp hstep
  obtain ⟨w', hw', rfl⟩ := Option.map_eq_some_iff.mp hstep
  have hmem := List.mem_of_getElem? hi
  -- a worker that goes on to wait was not active, or has just seen the flag
  have hset : w' ≠ .active → σ.signal.pauseWorkers = true ∧ ∀ c ∈ σ.calls, c.pc ≠ .clearing := by
    intro hne
    cases w with
    | active =>
      cases hflag : σ.signal.pauseWorkers with
      | true => exact ⟨rfl, hord hi hflag⟩
      | false =>
        simp only [parkStep, hflag, Bool.false_eq_true, if_false, Option.some.injEq] at hw'
        exact absurd hw'.symm hne
    | checked | idle | waiting =>
      refine ⟨h.flagged _ hmem (by decide), fun c hc hpc => ?_⟩
      exact absurd (h.clearing c hc hpc _ hmem) (by decide)
  constructor
  · intro c hc hpc v hv
    rcases List.mem_or_eq_of_mem_set hv with hv | rfl
    · exact h.clearing c hc hpc v hv
    · by_contra hne
      exact (hset hne).2 c hc hpc
  · intro v hv hne
    rcases List.mem_or_eq_of_mem_set hv with hv | rfl
    · exact h.flagged v hv hne
    · exact (hset hne).1

theorem step_inv (σ : WakeState) (a : WakeAction) (τ : WakeState) (h : σ.Inv) (hord : σ.Ordered a)
    (hstep : σ.step a = some τ) : τ.Inv := by
  cases a with
  | resume | publish | collect =>
    obtain rfl := Option.some.inj hstep
    exact h.begin (by simp)
  | update updated =>
    obtain rfl := Option.some.inj hstep
    exact ⟨h.clearing, h.flagged⟩
  | call k => exact call_inv h hord hstep
  | worker i => exact worker_inv h hord hstep

/-- Any number of workers and calls: no wake-up is lost in a run whose notifications and
parkings are ordered. -/
theorem no_lostWakeUp_of_ordered (signal : WorkerSignal) (metrics : QueueMetrics) (n : ℕ)
    (as : List WakeAction) (h : Guarded step Ordered (start signal metrics n) as) :
    Always step (fun σ => ¬ σ.LostWakeUp) (start signal metrics n) as := by
  have hinv : (start signal metrics n).Inv := by
    refine ⟨by simp [start], fun w hw hne => ?_⟩
    exact absurd (List.eq_of_mem_replicate hw) hne
  exact always_of_invariant step_inv (fun _ h => h.not_lost) hinv h

/-- The queue is idle and a published event sets the flag; a worker parks itself, a job
arrives, and the next event wakes the worker. -/
def parkedThenWoken : List WakeAction :=
  [.publish, .call 0, .call 0, .call 0, .worker 0, .worker 0, .worker 0, .update { waiting := 1 },
    .publish, .call 1, .call 1, .call 1, .call 1, .call 1, .call 1, .worker 0]

theorem parkedThenWoken_not_lost :
    (run step (start ⟨false, false⟩ {} 1) parkedThenWoken).map (fun σ =>
        (σ.workers, σ.signal.pauseWorkers)) = some ([.active], false) ∧
      Guarded step Ordered (start ⟨false, false⟩ {} 1) parkedThenWoken ∧
      Always step (fun σ => ¬ σ.LostWakeUp) (start ⟨false, false⟩ {} 1) parkedThenWoken :=
  ⟨by decide +kernel, by decide +kernel,
    no_lostWakeUp_of_ordered ⟨false, false⟩ {} 1 parkedThenWoken (by decide +kernel)⟩

/-- The worker has loaded the flag and creates its future after the notification. -/
def lateRegistration : List WakeAction :=
  [.publish, .call 0, .call 0, .call 0, .worker 0, .update { waiting := 1 }, .publish, .call 1,
    .call 1, .call 1, .call 1, .call 1, .worker 0, .worker 0, .call 1]

/-- All calls have returned, the flag is off, a job is waiting, and so is the worker. -/
theorem lateRegistration_lost :
    (run step (start ⟨false, false⟩ {} 1) lateRegistration).map (fun σ =>
        (σ.workers, σ.signal.pauseWorkers, σ.metrics.waiting, σ.calls.map SignalCall.pc)) =
        some ([.waiting], false, 1, [.returned, .returned]) ∧
      ¬ Always step (fun σ => ¬ σ.LostWakeUp) (start ⟨false, false⟩ {} 1) lateRegistration := by
  refine ⟨by decide +kernel, not_always_of_run (fun σ => decide σ.LostWakeUp) (fun σ hσ h => ?_)
    (by decide +kernel)⟩
  exact h (of_decide_eq_true hσ)

end WakeState

end Kiomq
