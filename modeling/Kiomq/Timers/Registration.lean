import Kiomq.Timers.Collector

/-!
# Registration of the timers of a worker

A worker sends four timers, one after another. The sender drops a timer when the queue is
subscribed to its duration, whatever timer it has subscribed for. So the later one of two
timers with the same duration is not scheduled, and the default options have such a pair.
A timer out of the range of the delay queue ends the task that holds all timers. The call
is short against the durations: no timer expires in its course.
-/

namespace Kiomq

open Foundations

def WorkerOpts.timers (opts : WorkerOpts) : List TimerType :=
  [.extendLock opts.lockDuration, .stalledCheck opts.stalledInterval,
    .collectMetrics opts.metricsUpdateInterval, .reregisterWorker]

theorem WorkerOpts.nodup_timers (opts : WorkerOpts) : opts.timers.Nodup := by
  simp [timers]

/-- The farthest deadline that the wheel of a delay queue takes, in milliseconds: it has six
levels of 64 slots. -/
def maxDeadline : ℕ := 2 ^ 36 - 1

/-- The task that receives the timers of all queues: the collector, and whether the task is still
there. -/
structure GlobalTimerTask where
  collector : Collector
  running : Bool

namespace GlobalTimerTask

/-- Reception of a timer. The wheel is some milliseconds behind the clock, and a deadline that is
too far from it makes the task panic: the queue is subscribed by then, and the delay queue goes
with the task. -/
def receive (behind : ℕ) (t : GlobalTimerTask) (queueId : Uuid) (timer : TimerType) :
    GlobalTimerTask :=
  let received := t.collector.receive queueId timer
  if behind + timer.nextDuration ≤ maxDeadline then { t with collector := received }
  else ⟨{ received with delayedQueue := [] }, false⟩

/-- `TimerSender::send`; what is sent to a task that is gone is lost. -/
def send (behind : ℕ) (t : GlobalTimerTask) (queueId : Uuid) (timer : TimerType) :
    GlobalTimerTask :=
  if t.collector.timerExists timer queueId then t
  else if t.running then t.receive behind queueId timer
  else t

def sendAll (behind : ℕ) (t : GlobalTimerTask) (queueId : Uuid) (timers : List TimerType) :
    GlobalTimerTask :=
  timers.foldl (fun t timer => t.send behind queueId timer) t

def registerWorkerTimers (behind : ℕ) (t : GlobalTimerTask) (queueId : Uuid) (opts : WorkerOpts) :
    GlobalTimerTask :=
  t.sendAll behind queueId opts.timers

end GlobalTimerTask

namespace Collector

def sendAll (c : Collector) (queueId : Uuid) (timers : List TimerType) : Collector :=
  timers.foldl (fun c timer => c.send queueId timer) c

def Subscribed (c : Collector) (queueId : Uuid) (duration : ℕ) : Prop :=
  ∃ subscribers, c.globalTimers.get? duration = some subscribers ∧ queueId ∈ subscribers.keys

def IsScheduled (c : Collector) (timer : TimerType) : Prop :=
  (timer.nextDuration, timer) ∈ c.delayedQueue

/-- The timer is scheduled, and the queue gets it when it expires. -/
def HoldsTimer (c : Collector) (queueId : Uuid) (timer : TimerType) : Prop :=
  c.IsScheduled timer ∧ c.Subscribed queueId timer.nextDuration

instance (c : Collector) (timer : TimerType) : Decidable (c.IsScheduled timer) :=
  inferInstanceAs (Decidable (_ ∈ _))

/-! ### One timer -/

theorem timerExists_iff (c : Collector) (timer : TimerType) (queueId : Uuid) :
    c.timerExists timer queueId = true ↔ c.Subscribed queueId timer.nextDuration := by
  unfold timerExists Subscribed
  cases hget : c.globalTimers.get? timer.nextDuration with
  | none => simp
  | some subscribers =>
    simp only [Option.any_some, OrderedMap.containsKey_eq, Option.some.injEq, exists_eq_left',
      OrderedMap.mem_keys, Option.isSome_iff_exists]

theorem subscribed_send (c : Collector) (queueId : Uuid) (timer : TimerType) (duration : ℕ) :
    (c.send queueId timer).Subscribed queueId duration ↔
      duration = timer.nextDuration ∨ c.Subscribed queueId duration := by
  unfold send
  split_ifs with hexists
  · rw [timerExists_iff] at hexists
    constructor
    · exact Or.inr
    · rintro (rfl | h)
      · exact hexists
      · exact h
  · unfold Subscribed
    rw [get?_receive]
    split_ifs with hduration
    · simp [hduration, OrderedMap.mem_keys, OrderedMap.get?_insert]
    · simp [hduration]

theorem isScheduled_send (c : Collector) (queueId : Uuid) (timer timer' : TimerType) :
    (c.send queueId timer).IsScheduled timer' ↔
      c.IsScheduled timer' ∨ timer' = timer ∧ ¬ c.Subscribed queueId timer.nextDuration := by
  have hexists := c.timerExists_iff timer queueId
  unfold send
  split_ifs with hsent
  · simp [hexists.mp hsent]
  · rw [hexists] at hsent
    simp only [IsScheduled, receive, List.mem_append, List.mem_singleton, Prod.mk.injEq, hsent,
      not_false_eq_true, and_true]
    constructor
    · exact Or.imp_right And.right
    · exact Or.imp_right fun h => ⟨congrArg TimerType.nextDuration h, h⟩

/-! ### A list of timers -/

theorem subscribed_sendAll (c : Collector) (queueId : Uuid) (timers : List TimerType)
    (duration : ℕ) :
    (c.sendAll queueId timers).Subscribed queueId duration ↔
      (∃ timer ∈ timers, duration = timer.nextDuration) ∨ c.Subscribed queueId duration := by
  induction timers generalizing c with
  | nil => simp [sendAll]
  | cons timer timers ih =>
    refine (ih (c.send queueId timer)).trans ?_
    rw [subscribed_send, List.exists_mem_cons_iff, or_left_comm, or_assoc]

theorem isScheduled_sendAll_of_notMem (c : Collector) (queueId : Uuid) (timers : List TimerType)
    {timer : TimerType} (h : timer ∉ timers) :
    (c.sendAll queueId timers).IsScheduled timer ↔ c.IsScheduled timer := by
  induction timers generalizing c with
  | nil => rfl
  | cons first timers ih =>
    rw [List.mem_cons, not_or] at h
    obtain ⟨hne, hrest⟩ := h
    refine (ih (c.send queueId first) hrest).trans ?_
    rw [isScheduled_send]
    simp [hne]

/-- All timers of a list get scheduled just if those that are dropped are scheduled already: the
ones whose duration the queue is subscribed to, or an earlier timer of the list has. -/
theorem isScheduled_sendAll_iff (c : Collector) (queueId : Uuid) {timers : List TimerType}
    (hnodup : timers.Nodup) :
    (∀ timer ∈ timers, (c.sendAll queueId timers).IsScheduled timer) ↔
      (∀ timer ∈ timers, c.Subscribed queueId timer.nextDuration → c.IsScheduled timer) ∧
        timers.Pairwise fun earlier later =>
          earlier.nextDuration = later.nextDuration → c.IsScheduled later := by
  induction timers generalizing c with
  | nil => simp
  | cons first timers ih =>
    obtain ⟨hfirst, hrest⟩ := List.nodup_cons.mp hnodup
    have hsame : ∀ timer ∈ timers,
        ((c.send queueId first).IsScheduled timer ↔ c.IsScheduled timer) := by
      intro timer htimer
      have hne : timer ≠ first := fun h => hfirst (h ▸ htimer)
      rw [isScheduled_send]
      simp [hne]
    -- the first timer is not touched by those that follow it
    have hhead : (c.sendAll queueId (first :: timers)).IsScheduled first ↔
        (c.Subscribed queueId first.nextDuration → c.IsScheduled first) := by
      refine ((c.send queueId first).isScheduled_sendAll_of_notMem queueId timers hfirst).trans ?_
      rw [isScheduled_send]
      tauto
    have htail : (∀ timer ∈ timers, (c.sendAll queueId (first :: timers)).IsScheduled timer) ↔
        (∀ timer ∈ timers, (timer.nextDuration = first.nextDuration ∨
            c.Subscribed queueId timer.nextDuration) → c.IsScheduled timer) ∧
          timers.Pairwise fun earlier later =>
            earlier.nextDuration = later.nextDuration → c.IsScheduled later := by
      refine (ih (c.send queueId first) hrest).trans (and_congr ?_ ?_)
      · refine forall₂_congr fun timer htimer => ?_
        rw [subscribed_send, hsame timer htimer]
      · exact List.Pairwise.iff_of_mem fun _ hlater => by rw [hsame _ hlater]
    rw [List.forall_mem_cons, List.forall_mem_cons, List.pairwise_cons, hhead, htail]
    constructor
    · rintro ⟨hsubscribed, hothers, hpairs⟩
      exact ⟨⟨hsubscribed, fun timer htimer h => hothers timer htimer (Or.inr h)⟩,
        fun timer htimer h => hothers timer htimer (Or.inl h.symm), hpairs⟩
    · rintro ⟨⟨hsubscribed, hothers⟩, hequal, hpairs⟩
      refine ⟨hsubscribed, fun timer htimer h => ?_, hpairs⟩
      exact h.elim (fun h => hequal timer htimer h.symm) (hothers timer htimer)

theorem not_subscribed_new (queueId : Uuid) (duration : ℕ) :
    ¬ Collector.new.Subscribed queueId duration := by
  rintro ⟨subscribers, hget, -⟩
  simp [Collector.new, OrderedMap.get?] at hget

end Collector

namespace GlobalTimerTask

/-! ### The range of the delay queue -/

theorem sendAll_cons (behind : ℕ) (t : GlobalTimerTask) (queueId : Uuid) (timer : TimerType)
    (timers : List TimerType) :
    t.sendAll behind queueId (timer :: timers) =
      (t.send behind queueId timer).sendAll behind queueId timers := rfl

def InRange (behind : ℕ) (timers : List TimerType) : Prop :=
  ∀ timer ∈ timers, behind + timer.nextDuration ≤ maxDeadline

instance (behind : ℕ) (timers : List TimerType) : Decidable (InRange behind timers) :=
  inferInstanceAs (Decidable (∀ timer ∈ timers, _))

theorem send_of_le {behind : ℕ} {timer : TimerType}
    (h : behind + timer.nextDuration ≤ maxDeadline) (c : Collector) (queueId : Uuid) :
    send behind ⟨c, true⟩ queueId timer = ⟨c.send queueId timer, true⟩ := by
  unfold send Collector.send
  split
  · rfl
  · rw [if_pos rfl, receive, if_pos h]

theorem sendAll_of_inRange {behind : ℕ} {timers : List TimerType} (h : InRange behind timers)
    (c : Collector) (queueId : Uuid) :
    sendAll behind ⟨c, true⟩ queueId timers = ⟨c.sendAll queueId timers, true⟩ := by
  induction timers generalizing c with
  | nil => rfl
  | cons timer timers ih =>
    obtain ⟨htimer, hrest⟩ := List.forall_mem_cons.mp h
    rw [sendAll_cons, send_of_le htimer, ih hrest]
    rfl

theorem sendAll_of_stopped (behind : ℕ) (c : Collector) (queueId : Uuid)
    (timers : List TimerType) : sendAll behind ⟨c, false⟩ queueId timers = ⟨c, false⟩ := by
  induction timers with
  | nil => rfl
  | cons timer timers ih =>
    have hsend : send behind ⟨c, false⟩ queueId timer = ⟨c, false⟩ := by
      simp [send]
    rw [sendAll_cons, hsend, ih]

/-- A timer out of range that the queue is not subscribed to is received, and ends the task. -/
theorem delayedQueue_sendAll (behind : ℕ) {timers : List TimerType} {c : Collector}
    {queueId : Uuid}
    (hnone : ∀ timer ∈ timers, maxDeadline < behind + timer.nextDuration →
      ¬ c.Subscribed queueId timer.nextDuration) (h : ¬ InRange behind timers) :
    (sendAll behind ⟨c, true⟩ queueId timers).collector.delayedQueue = [] := by
  induction timers generalizing c with
  | nil => exact absurd (List.forall_mem_nil _) h
  | cons timer timers ih =>
    obtain ⟨hfirst, hnone⟩ := List.forall_mem_cons.mp hnone
    rw [sendAll_cons]
    by_cases htimer : behind + timer.nextDuration ≤ maxDeadline
    · rw [send_of_le htimer]
      refine ih (fun later hlater hfar => ?_) fun hrest => ?_
      swap
      · exact h (List.forall_mem_cons.mpr ⟨htimer, hrest⟩)
      rw [Collector.subscribed_send, not_or]
      exact ⟨by omega, hnone later hlater hfar⟩
    · have hsub := hfirst (Nat.lt_of_not_le htimer)
      rw [← Collector.timerExists_iff] at hsub
      rw [send, if_neg hsub, if_pos rfl, receive, if_neg htimer, sendAll_of_stopped]

/-! ### The four timers -/

/-- For a queue without timers, all four are held just if their durations are in the range of the
delay queue, and a timer with the duration of an earlier one is scheduled already, for another
queue. -/
theorem registerWorkerTimers_complete_iff (behind : ℕ) (c : Collector) (queueId : Uuid)
    (opts : WorkerOpts) (hnone : ∀ duration, ¬ c.Subscribed queueId duration) :
    (∀ timer ∈ opts.timers,
        (registerWorkerTimers behind ⟨c, true⟩ queueId opts).collector.HoldsTimer queueId timer) ↔
      InRange behind opts.timers ∧ opts.timers.Pairwise fun earlier later =>
        earlier.nextDuration = later.nextDuration → c.IsScheduled later := by
  by_cases hrange : InRange behind opts.timers
  · rw [registerWorkerTimers, sendAll_of_inRange hrange, and_iff_right hrange]
    have hsubscribed : ∀ timer ∈ opts.timers,
        (c.sendAll queueId opts.timers).Subscribed queueId timer.nextDuration := by
      intro timer htimer
      exact (c.subscribed_sendAll queueId opts.timers _).mpr (Or.inl ⟨timer, htimer, rfl⟩)
    have hholds : (∀ timer ∈ opts.timers,
        (c.sendAll queueId opts.timers).HoldsTimer queueId timer) ↔
          ∀ timer ∈ opts.timers, (c.sendAll queueId opts.timers).IsScheduled timer :=
      forall₂_congr fun timer htimer => and_iff_left (hsubscribed timer htimer)
    rw [hholds]
    refine (c.isScheduled_sendAll_iff queueId opts.nodup_timers).trans (and_iff_right ?_)
    intro timer _ h
    exact absurd h (hnone _)
  · have hempty := delayedQueue_sendAll behind
      (fun (timer : TimerType) _ _ => hnone timer.nextDuration) hrange
    refine iff_of_false (fun h => ?_) fun h => hrange h.1
    have hheld := (h .reregisterWorker (by simp [WorkerOpts.timers])).1
    rw [Collector.IsScheduled, registerWorkerTimers, hempty] at hheld
    exact List.not_mem_nil hheld

def shortCheck : WorkerOpts := { stalledInterval := 20000 }

theorem shortCheck_timers_held :
    shortCheck.timers =
        [.extendLock 30000, .stalledCheck 20000, .collectMetrics 100, .reregisterWorker] ∧
      ∀ timer ∈ shortCheck.timers,
        (registerWorkerTimers 5 ⟨.new, true⟩ 1 shortCheck).collector.HoldsTimer 1 timer :=
  ⟨rfl, (registerWorkerTimers_complete_iff 5 .new 1 shortCheck
    (Collector.not_subscribed_new 1)).mpr (by decide)⟩

/-- With the default options the check for stalled jobs is not scheduled. -/
theorem defaults_without_stalledCheck :
    (registerWorkerTimers 0 ⟨.new, true⟩ 1 {}).collector.delayedQueue =
        [(30000, .extendLock 30000), (100, .collectMetrics 100), (100000, .reregisterWorker)] ∧
      ¬ (registerWorkerTimers 0 ⟨.new, true⟩ 1 {}).collector.HoldsTimer 1
        (.stalledCheck 30000) := by
  refine ⟨by decide +kernel, fun h => ?_⟩
  have hscheduled := h.1
  revert hscheduled
  decide +kernel

/-- A lock duration of 2 ^ 36 milliseconds is out of range, and no timer is held. -/
example : (registerWorkerTimers 0 ⟨.new, true⟩ 1
    { shortCheck with lockDuration := 2 ^ 36 }).collector.delayedQueue = [] := by
  decide +kernel

end GlobalTimerTask

end Kiomq
