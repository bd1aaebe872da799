import Kiomq.Foundations.Runs
import Kiomq.Timers.Collector

/-!
# Delivery of promotions to their own queue

The collector shared by any number of queues, under any order of registrations,
expiries and deliveries. All promotions have one duration, hence one set of
subscribers, which the first expiry consumes. A promotion is delivered exactly once
and to its own queue in every run that never schedules it next to another timer of
that duration; two queues that promote in the same window get each other's jobs.
-/

namespace Kiomq

open Foundations

/-- What can happen to the collector; `process` is the reception of a command by the
timer task of a queue. -/
inductive TimerEvent
  | promote (jobId : ℕ) (queueId : Uuid)
  | schedule (queueId : Uuid) (timer : TimerType)
  | expire (i : ℕ)
  | registerQueue (queueId : Uuid)
  | unregisterQueue (queueId : Uuid)
  | process (queueId : Uuid) (i : ℕ)

namespace Collector

def step (c : Collector) : TimerEvent → Option Collector
  | .promote jobId queueId => some (c.receive queueId (.promotedDelayed jobId queueId))
  | .schedule queueId timer =>
    match timer.promoted? with
    | some _ => none
    | none => some (c.receive queueId timer)
  | .expire i => c.expire i
  | .registerQueue queueId => some (c.registerQueue queueId)
  | .unregisterQueue queueId => some (c.unregisterQueue queueId)
  | .process queueId i =>
    if i < (c.channel queueId).length then some (c.takeCommand queueId i) else none

/-- Each scheduled promotion would, on expiry, be delivered once to its own queue, if
that is registered, and to no other. -/
def PromotionsStay (c : Collector) : Prop :=
  ∀ i c' d jobId queueId, c.delayedQueue[i]? = some (d, .promotedDelayed jobId queueId) →
    c.expire i = some c' → ∀ q, c'.channel q =
      c.channel q ++ if q = queueId ∧ c.queues.containsKey queueId = true then
        [.promotedDelayed jobId queueId] else []

/-- A promotion is scheduled only while no timer of its duration is, and another timer of
that duration only while no promotion is. -/
def Alone (c : Collector) : TimerEvent → Prop
  | .promote _ _ => ∀ e ∈ c.delayedQueue, e.1 ≠ minDelayMsLimit
  | .schedule _ timer =>
    timer.nextDuration = minDelayMsLimit → ∀ e ∈ c.delayedQueue, e.2.promoted? = none
  | _ => True

instance (c : Collector) (e : TimerEvent) : Decidable (c.Alone e) := by
  cases e <;> unfold Alone <;> infer_instance

structure DeliveryInv (c : Collector) : Prop where
  durations : ∀ e ∈ c.delayedQueue, e.1 = e.2.nextDuration
  entries : ∀ d subscribers, c.globalTimers.get? d = some subscribers →
    ∃ e ∈ c.delayedQueue, e.1 = d
  alone : ∀ jobId queueId,
    (minDelayMsLimit, TimerType.promotedDelayed jobId queueId) ∈ c.delayedQueue →
    (∀ e ∈ c.delayedQueue, e.1 = minDelayMsLimit →
      e = (minDelayMsLimit, .promotedDelayed jobId queueId)) ∧
      c.delayedQueue.count (minDelayMsLimit, .promotedDelayed jobId queueId) = 1 ∧
      ∃ subscribers, c.globalTimers.get? minDelayMsLimit = some subscribers ∧
        ∀ q ∈ subscribers.keys, q = queueId

theorem DeliveryInv.congr {c c' : Collector} (h : DeliveryInv c)
    (hdq : c'.delayedQueue = c.delayedQueue) (hgt : c'.globalTimers = c.globalTimers) :
    DeliveryInv c' := by
  constructor
  · rw [hdq]
    exact h.durations
  · rw [hdq, hgt]
    exact h.entries
  · rw [hdq, hgt]
    exact h.alone

theorem DeliveryInv.scheduled {c : Collector} (h : DeliveryInv c) : Scheduled c :=
  ⟨h.durations, h.entries⟩

theorem DeliveryInv.unregisterQueue {c : Collector} (h : DeliveryInv c) (queueId : Uuid) :
    DeliveryInv (c.unregisterQueue queueId) := by
  have hs := h.scheduled.unregisterQueue queueId
  refine ⟨hs.durations, hs.entries, ?_⟩
  intro jobId target hmem
  obtain ⟨honly, hcount, subscribers, hsub, hkeys⟩ := h.alone jobId target hmem
  refine ⟨honly, hcount, subscribers.remove queueId, ?_, ?_⟩
  · simp only [Collector.unregisterQueue, OrderedMap.get?_mapValues, hsub, Option.map_some]
  · intro q hq
    apply hkeys q
    rw [OrderedMap.mem_keys] at hq ⊢
    obtain ⟨v, hv⟩ := hq
    rw [OrderedMap.get?_remove] at hv
    split_ifs at hv
    exact ⟨v, hv⟩

/-- With no timer of the duration scheduled there is no subscription left over. -/
theorem DeliveryInv.promote {c : Collector} (h : DeliveryInv c) {jobId : ℕ} {queueId : Uuid}
    (hguard : ∀ e ∈ c.delayedQueue, e.1 ≠ minDelayMsLimit) :
    DeliveryInv (c.receive queueId (.promotedDelayed jobId queueId)) := by
  have hs := h.scheduled.receive queueId (.promotedDelayed jobId queueId)
  refine ⟨hs.durations, hs.entries, ?_⟩
  intro j q hmem
  have hnone : c.globalTimers.get? minDelayMsLimit = none := by
    refine Option.eq_none_iff_forall_ne_some.mpr fun subscribers hs => ?_
    obtain ⟨e, he, hd⟩ := h.entries _ _ hs
    exact hguard e he hd
  have heq : (minDelayMsLimit, TimerType.promotedDelayed j q) =
      (minDelayMsLimit, TimerType.promotedDelayed jobId queueId) := by
    rcases List.mem_append.mp hmem with hm | hm
    · exact absurd rfl (hguard _ hm)
    · simpa [TimerType.nextDuration] using hm
  simp only [Prod.mk.injEq, TimerType.promotedDelayed.injEq, true_and] at heq
  obtain ⟨rfl, rfl⟩ := heq
  refine ⟨?_, ?_, OrderedMap.empty.insert q (), ?_, ?_⟩
  · intro e he hd
    rcases List.mem_append.mp he with he | he
    · exact absurd hd (hguard e he)
    · simpa [TimerType.nextDuration] using he
  · have hzero : c.delayedQueue.count (minDelayMsLimit, TimerType.promotedDelayed j q) = 0 :=
      List.count_eq_zero.mpr fun hm => hguard _ hm rfl
    simp only [receive, TimerType.nextDuration, List.count_append, hzero, List.count_singleton_self]
  · rw [get?_receive]
    simp only [TimerType.nextDuration, if_true, hnone, Option.getD_none]
  · intro q' hq'
    rw [OrderedMap.mem_keys] at hq'
    obtain ⟨v, hv⟩ := hq'
    rw [OrderedMap.get?_insert] at hv
    by_contra hne
    rw [if_neg hne] at hv
    simp [OrderedMap.get?] at hv

theorem DeliveryInv.schedule {c : Collector} (h : DeliveryInv c) {queueId : Uuid}
    {timer : TimerType} (htimer : timer.promoted? = none)
    (hguard : timer.nextDuration = minDelayMsLimit →
      ∀ e ∈ c.delayedQueue, e.2.promoted? = none) :
    DeliveryInv (c.receive queueId timer) := by
  have hs := h.scheduled.receive queueId timer
  refine ⟨hs.durations, hs.entries, ?_⟩
  intro j q hmem
  have hold : (minDelayMsLimit, TimerType.promotedDelayed j q) ∈ c.delayedQueue := by
    rcases List.mem_append.mp hmem with hm | hm
    · exact hm
    · obtain ⟨-, rfl⟩ : minDelayMsLimit = timer.nextDuration ∧
        TimerType.promotedDelayed j q = timer := by simpa using hm
      simp [TimerType.promoted?] at htimer
  -- a promotion is under way, so the guard rules out the common duration
  have hdur : timer.nextDuration ≠ minDelayMsLimit := by
    intro hd
    have := hguard hd _ hold
    simp [TimerType.promoted?] at this
  obtain ⟨honly, hcount, subscribers, hsub, hkeys⟩ := h.alone j q hold
  refine ⟨?_, ?_, subscribers, ?_, hkeys⟩
  · intro e he hd
    rcases List.mem_append.mp he with he | he
    · exact honly e he hd
    · obtain rfl : e = (timer.nextDuration, timer) := by simpa using he
      exact absurd hd hdur
  · have hne : (timer.nextDuration, timer) ≠ (minDelayMsLimit, .promotedDelayed j q) := by
      intro heq
      exact hdur (congrArg Prod.fst heq)
    simp only [receive, List.count_append, hcount, List.count_singleton, beq_iff_eq, if_neg hne]
  · rw [get?_receive, if_neg (Ne.symm hdur)]
    exact hsub

theorem DeliveryInv.expire {c c' : Collector} (h : DeliveryInv c) {i : ℕ}
    (hexp : c.expire i = some c') : DeliveryInv c' := by
  obtain ⟨entry, hentry, hdq, -⟩ := channel_expire hexp 0
  obtain ⟨hi, hget⟩ := List.getElem?_eq_some_iff.mp hentry
  have hperm := List.getElem_cons_eraseIdx_perm hi
  rw [hget] at hperm
  have hsub : ∀ e ∈ c'.delayedQueue, e ∈ c.delayedQueue := by
    intro e he
    rw [hdq] at he
    exact List.mem_of_mem_eraseIdx he
  have hs := h.scheduled.expire hexp
  refine ⟨hs.durations, hs.entries, ?_⟩
  intro j q hmem
  obtain ⟨honly, hcount, subscribers, hsubs, hkeys⟩ := h.alone j q (hsub _ hmem)
  have hmem' : (minDelayMsLimit, TimerType.promotedDelayed j q) ∈ c.delayedQueue.eraseIdx i :=
    hdq ▸ hmem
  have hcons := hperm.count_eq (minDelayMsLimit, TimerType.promotedDelayed j q)
  have hpos := List.count_pos_iff.mpr hmem'
  rw [List.count_cons, hcount] at hcons
  -- the promotion is scheduled once and still there, so another timer has expired
  have hentry_ne : entry ≠ (minDelayMsLimit, .promotedDelayed j q) := by
    intro heq
    simp only [heq, beq_self_eq_true, if_true] at hcons
    omega
  have hdur : entry.1 ≠ minDelayMsLimit := by
    intro hd
    exact hentry_ne (honly entry (hget ▸ List.getElem_mem hi) hd)
  refine ⟨fun e he hd => honly e (hsub e he) hd, ?_, subscribers, ?_, hkeys⟩
  · rw [hdq]
    simpa [hentry_ne] using hcons
  · rw [get?_globalTimers_expire hexp hentry, if_neg (Ne.symm hdur)]
    exact hsubs

theorem step_deliveryInv (c : Collector) (e : TimerEvent) (c' : Collector) (h : DeliveryInv c)
    (hguard : c.Alone e) (hstep : c.step e = some c') : DeliveryInv c' := by
  cases e with
  | promote jobId queueId =>
    obtain rfl := Option.some.inj hstep
    exact h.promote hguard
  | schedule queueId timer =>
    simp only [step] at hstep
    cases ht : timer.promoted? with
    | some j => simp [ht] at hstep
    | none =>
      simp only [ht, Option.some.injEq] at hstep
      subst hstep
      exact h.schedule ht hguard
  | expire i => exact h.expire hstep
  | registerQueue queueId =>
    obtain rfl := Option.some.inj hstep
    unfold Collector.registerQueue
    split_ifs
    · exact h
    · exact h.congr rfl rfl
  | unregisterQueue queueId =>
    obtain rfl := Option.some.inj hstep
    exact h.unregisterQueue queueId
  | process queueId i =>
    simp only [step] at hstep
    split_ifs at hstep
    obtain rfl := Option.some.inj hstep
    exact h.congr rfl rfl

theorem DeliveryInv.promotionsStay {c : Collector} (h : DeliveryInv c) : PromotionsStay c := by
  intro i c' d jobId queueId hi hexp q
  obtain ⟨entry, hentry, -, hch⟩ := channel_expire hexp q
  obtain rfl : entry = (d, .promotedDelayed jobId queueId) :=
    Option.some.inj (hentry.symm.trans hi)
  have hmem : (d, TimerType.promotedDelayed jobId queueId) ∈ c.delayedQueue :=
    List.mem_of_getElem? hi
  obtain rfl : d = minDelayMsLimit := h.durations _ hmem
  obtain ⟨-, -, subscribers, hsub, hkeys⟩ := h.alone jobId queueId hmem
  have hq : q ∈ (targets subscribers (.promotedDelayed jobId queueId)).keys ↔ q = queueId := by
    rw [OrderedMap.mem_keys]
    constructor
    · rintro ⟨v, hv⟩
      by_contra hne
      rw [targets, OrderedMap.get?_insert, if_neg hne] at hv
      exact hne (hkeys q ((OrderedMap.mem_keys _ _).mpr ⟨v, hv⟩))
    · intro heq
      exact ⟨(), by rw [targets, OrderedMap.get?_insert, if_pos heq]⟩
  rw [hch]
  simp only [hsub, hq]
  by_cases hqq : q = queueId
  · subst hqq
    split_ifs <;> simp_all
  · simp [hqq]

theorem new_deliveryInv : DeliveryInv Collector.new :=
  ⟨Scheduled.new.durations, Scheduled.new.entries, by simp [Collector.new]⟩

/-- In every run that keeps promotions alone in their duration, promotions stay in their
queue. -/
theorem promotions_stay_of_alone (events : List TimerEvent)
    (h : Guarded step Alone Collector.new events) :
    Always step PromotionsStay Collector.new events :=
  always_of_invariant step_deliveryInv (fun _ hc => hc.promotionsStay) new_deliveryInv h

/-- Two queues that promote one after the other, next to a timer of another duration. -/
def separatePromotions : List TimerEvent :=
  [.registerQueue 1, .registerQueue 2, .schedule 1 (.collectMetrics 100), .promote 10 1, .expire 1,
    .process 1 0, .promote 20 2, .expire 1]

theorem separatePromotions_stay :
    Guarded step Alone Collector.new separatePromotions ∧
      Always step PromotionsStay Collector.new separatePromotions :=
  ⟨by decide +kernel, promotions_stay_of_alone separatePromotions (by decide +kernel)⟩

def sharedWindow : List TimerEvent :=
  [.registerQueue 1, .registerQueue 2, .promote 10 1, .promote 20 2]

/-- The first expiry sends job 10 of queue 1 to queue 2 as well. -/
theorem sharedWindow_crosses : ¬ Always step PromotionsStay Collector.new sharedWindow := by
  intro h
  obtain ⟨c, hc⟩ : ∃ c, run step Collector.new sharedWindow = some c := ⟨_, rfl⟩
  have hstay := h.of_run hc
  obtain rfl := Option.some.inj hc
  have hcross := hstay 0 _ 50 10 1 rfl rfl 2
  revert hcross
  decide +kernel

end Collector

end Kiomq
