import Kiomq.Foundations.Runs
import Kiomq.Worker.ProcessJob

/-!
# Which due jobs get a timer

A promotion takes the due ids out of the delayed set and then sends one timer for each
of them. All these timers have the same duration, and a timer is not sent when the
queue is subscribed to its duration already. So at most the first due job gets a
timer, and only if no other timer of that duration is registered for the queue. The
subscriptions of a duration go with the first timer that expires, so the promotion is
also lost when another timer of its duration, of any queue, expires before it.
-/

namespace Kiomq

open Foundations

namespace Queue

variable {D R P : Type}

def dueJobs (q : Queue D R P) (dateTime : Dt) (intervalMs : ℤ) : List ℕ :=
  if q.currentMetrics.hasDelayed then
    match dateTime.addMillis intervalMs with
    | .ok until_ =>
      (q.store.getDelayedAt dateTime.timestampMillis until_.timestampMillis).1.1
    | .error _ => []
  else []

def Scheduled (c : Collector) (queueId : Uuid) (jobId : ℕ) : Prop :=
  (minDelayMsLimit, TimerType.promotedDelayed jobId queueId) ∈ c.delayedQueue

instance (c : Collector) (queueId : Uuid) (jobId : ℕ) : Decidable (Scheduled c queueId jobId) :=
  inferInstanceAs (Decidable (_ ∈ c.delayedQueue))

def subscribed (c : Collector) (queueId : Uuid) : Bool :=
  (c.globalTimers.get? minDelayMsLimit).any fun subscribers => subscribers.containsKey queueId

theorem timerExists_promotedDelayed (c : Collector) (queueId : Uuid) (jobId : ℕ) (target : Uuid) :
    c.timerExists (.promotedDelayed jobId target) queueId = subscribed c queueId := rfl

theorem subscribed_receive (c : Collector) (queueId : Uuid) (jobId : ℕ) :
    subscribed (c.receive queueId (.promotedDelayed jobId queueId)) queueId = true := by
  simp [subscribed, Collector.receive, TimerType.nextDuration, OrderedMap.get?_insert,
    OrderedMap.containsKey_eq]

theorem sendPromotions_of_subscribed {c : Collector} {queueId : Uuid}
    (h : subscribed c queueId = true) (jobs : List ℕ) : sendPromotions queueId c jobs = c := by
  induction jobs with
  | nil => rfl
  | cons jobId jobs ih =>
    have hsend : c.send queueId (.promotedDelayed jobId queueId) = c := by
      rw [Collector.send, timerExists_promotedDelayed, h, if_pos rfl]
    rw [sendPromotions, List.foldl_cons, hsend]
    exact ih

theorem sendPromotions_of_not_subscribed {c : Collector} {queueId : Uuid}
    (h : subscribed c queueId = false) (jobId : ℕ) (jobs : List ℕ) :
    sendPromotions queueId c (jobId :: jobs) =
      c.receive queueId (.promotedDelayed jobId queueId) := by
  have hsend : c.send queueId (.promotedDelayed jobId queueId) =
      c.receive queueId (.promotedDelayed jobId queueId) := by
    rw [Collector.send, timerExists_promotedDelayed, h]
    rfl
  rw [sendPromotions, List.foldl_cons, hsend]
  exact sendPromotions_of_subscribed (subscribed_receive c queueId jobId) jobs

theorem scheduled_receive_iff (c : Collector) (queueId : Uuid) (jobId id : ℕ) :
    Scheduled (c.receive queueId (.promotedDelayed jobId queueId)) queueId id ↔
      Scheduled c queueId id ∨ id = jobId := by
  simp [Scheduled, Collector.receive, TimerType.nextDuration]

theorem scheduled_sendPromotions_iff (c : Collector) (queueId : Uuid) (jobs : List ℕ) (id : ℕ) :
    Scheduled (sendPromotions queueId c jobs) queueId id ↔
      Scheduled c queueId id ∨ (subscribed c queueId = false ∧ jobs.head? = some id) := by
  cases hsub : subscribed c queueId with
  | true => simp [sendPromotions_of_subscribed hsub]
  | false =>
    cases jobs with
    | nil => simp [sendPromotions]
    | cons jobId jobs =>
      rw [sendPromotions_of_not_subscribed hsub, scheduled_receive_iff]
      simp [eq_comm]

theorem promoteJobs_collector (q : Queue D R P) (c : Collector) (dateTime : Dt) (intervalMs : ℤ)
    (clock : Clock) :
    (q.promoteJobs c dateTime intervalMs clock).2.2 =
      sendPromotions q.id c (q.dueJobs dateTime intervalMs) := by
  unfold promoteJobs dueJobs
  cases q.currentMetrics.hasDelayed with
  | false => rfl
  | true => cases dateTime.addMillis intervalMs <;> rfl

/-! ### Delivery in every order of expiries -/

/-- In every order in which the scheduled timers expire, the promotion of the job reaches the
channel of the queue. -/
def Delivered (c : Collector) (queueId : Uuid) (jobId : ℕ) : Prop :=
  ∀ order c', run Collector.expire c order = some c' → c'.delayedQueue = [] →
    ∃ sent, c'.channel queueId = c.channel queueId ++ sent ∧
      TimerType.promotedDelayed jobId queueId ∈ sent

/-- No timer of the duration of promotions is scheduled, for any queue, but this promotion. -/
def Unrivalled (c : Collector) (queueId : Uuid) (jobId : ℕ) : Prop :=
  ∀ e ∈ c.delayedQueue, e.1 = minDelayMsLimit → e.2 = TimerType.promotedDelayed jobId queueId

instance (c : Collector) (queueId : Uuid) (jobId : ℕ) : Decidable (Unrivalled c queueId jobId) :=
  inferInstanceAs (Decidable (∀ e ∈ c.delayedQueue, _ → _))

theorem exists_all_expired (c : Collector) :
    ∃ order c', run Collector.expire c order = some c' ∧ c'.delayedQueue = [] := by
  induction hdq : c.delayedQueue generalizing c with
  | nil => exact ⟨[], c, rfl, hdq⟩
  | cons e rest ih =>
    obtain ⟨c₁, hc₁⟩ : ∃ c₁, c.expire 0 = some c₁ := by
      rw [← Option.isSome_iff_exists, Collector.expire, hdq]
      rfl
    obtain ⟨-, -, hrest, -⟩ := Collector.channel_expire hc₁ 0
    rw [hdq] at hrest
    obtain ⟨order, c', hrun, hdone⟩ := ih c₁ hrest
    exact ⟨0 :: order, c', run_cons.mpr ⟨c₁, hc₁, hrun⟩, hdone⟩

theorem channel_run_expire {c c' : Collector} {order : List ℕ}
    (hrun : run Collector.expire c order = some c') (queueId : Uuid) :
    ∃ sent, c'.channel queueId = c.channel queueId ++ sent := by
  induction order generalizing c with
  | nil =>
    obtain rfl := Option.some.inj hrun
    exact ⟨[], (List.append_nil _).symm⟩
  | cons i order ih =>
    obtain ⟨c₁, hexp, hrun⟩ := run_cons.mp hrun
    obtain ⟨entry, hentry, -⟩ := Collector.channel_expire hexp queueId
    obtain ⟨first, hfirst, -⟩ := Collector.exists_sent_expire hexp hentry queueId
    obtain ⟨sent, hsent⟩ := ih hrun
    exact ⟨first ++ sent, by rw [hsent, hfirst, List.append_assoc]⟩

/-- A promotion without a rival is delivered: until it expires, the subscriptions of its duration
stay. -/
theorem delivered_of_unrivalled {c : Collector} {queueId : Uuid} {jobId : ℕ}
    (hscheduled : Scheduled c queueId jobId) (hkey : c.queues.containsKey queueId = true)
    (hentry : (c.globalTimers.get? minDelayMsLimit).isSome)
    (hsole : Unrivalled c queueId jobId) : Delivered c queueId jobId := by
  intro order c' hrun hdone
  induction order generalizing c with
  | nil =>
    obtain rfl := Option.some.inj hrun
    simp [Scheduled, hdone] at hscheduled
  | cons i order ih =>
    obtain ⟨c₁, hexp, hrun⟩ := run_cons.mp hrun
    obtain ⟨entry, hi, hdq, hch⟩ := Collector.channel_expire hexp queueId
    by_cases hdur : entry.1 = minDelayMsLimit
    · -- the promotion expires
      have htimer := hsole entry (List.mem_of_getElem? hi) hdur
      obtain ⟨subscribers, hsub⟩ := Option.isSome_iff_exists.mp hentry
      have htarget : queueId ∈ (Collector.targets subscribers entry.2).keys := by
        rw [htimer, OrderedMap.mem_keys]
        exact ⟨(), by rw [Collector.targets, OrderedMap.get?_insert, if_pos rfl]⟩
      rw [hdur, hsub] at hch
      simp only [htarget, hkey, and_self, if_true] at hch
      obtain ⟨sent, hsent⟩ := channel_run_expire hrun queueId
      refine ⟨entry.2 :: sent, ?_, htimer ▸ List.mem_cons_self⟩
      rw [hsent, hch, List.append_assoc, List.singleton_append]
    · -- a timer of another duration expires, and all is as before
      have hne : (minDelayMsLimit, TimerType.promotedDelayed jobId queueId) ≠ entry :=
        fun h => hdur (congrArg Prod.fst h).symm
      have hget := Collector.get?_globalTimers_expire hexp hi minDelayMsLimit
      rw [if_neg (Ne.symm hdur)] at hget
      obtain ⟨sent, hsent, hmem⟩ := ih
        (Collector.mem_delayedQueue_of_expire hexp hi hscheduled hne)
        ((Collector.containsKey_expire hexp queueId).trans hkey) (hget ▸ hentry)
        (fun e he => hsole e (List.mem_of_mem_eraseIdx (hdq ▸ he))) hrun
      obtain ⟨first, hfirst, -⟩ := Collector.exists_sent_expire hexp hi queueId
      exact ⟨first ++ sent, by rw [hsent, hfirst, List.append_assoc],
        List.mem_append_right _ hmem⟩

/-- Once the subscriptions of the duration are gone, promotions are sent to nobody. -/
theorem not_sent_of_unsubscribed {c c' : Collector} {order : List ℕ}
    (hc : Collector.Scheduled c) (hnone : c.globalTimers.get? minDelayMsLimit = none)
    (hrun : run Collector.expire c order = some c') (queueId : Uuid) (jobId : ℕ) :
    ∃ sent, c'.channel queueId = c.channel queueId ++ sent ∧
      TimerType.promotedDelayed jobId queueId ∉ sent := by
  induction order generalizing c with
  | nil =>
    obtain rfl := Option.some.inj hrun
    exact ⟨[], (List.append_nil _).symm, List.not_mem_nil⟩
  | cons i order ih =>
    obtain ⟨c₁, hexp, hrun⟩ := run_cons.mp hrun
    obtain ⟨entry, hi, -, hch⟩ := Collector.channel_expire hexp queueId
    have hget := Collector.get?_globalTimers_expire hexp hi minDelayMsLimit
    rw [hnone, ite_self] at hget
    obtain ⟨sent, hsent, hnot⟩ := ih (hc.expire hexp) hget hrun
    by_cases hdur : entry.1 = minDelayMsLimit
    · rw [hdur, hnone] at hch
      exact ⟨sent, by rw [hsent, hch], hnot⟩
    · have hother : entry.2 ≠ .promotedDelayed jobId queueId := by
        intro h
        exact hdur ((hc.durations entry (List.mem_of_getElem? hi)).trans (by rw [h]; rfl))
      obtain ⟨first, hfirst, honly⟩ := Collector.exists_sent_expire hexp hi queueId
      refine ⟨first ++ sent, by rw [hsent, hfirst, List.append_assoc], ?_⟩
      rw [List.mem_append, not_or]
      exact ⟨fun h => hother (honly _ h).symm, hnot⟩

theorem channel_of_unregistered {c : Collector} {queueId : Uuid}
    (h : c.queues.containsKey queueId = false) : c.channel queueId = [] := by
  rw [OrderedMap.containsKey_eq, Option.isSome_eq_false_iff, Option.isNone_iff_eq_none] at h
  rw [Collector.channel, h]
  rfl

theorem containsKey_run_expire {c c' : Collector} {order : List ℕ}
    (hrun : run Collector.expire c order = some c') (queueId : Uuid) :
    c'.queues.containsKey queueId = c.queues.containsKey queueId :=
  run_invariant_all (fun _ _ _ hs hexp => (Collector.containsKey_expire hexp queueId).trans hs)
    rfl hrun

/-- A timer of the same duration that expires first takes the subscriptions with it. -/
theorem unrivalled_of_delivered {c : Collector} {queueId : Uuid} {jobId : ℕ}
    (hc : Collector.Scheduled c) (h : Delivered c queueId jobId) : Unrivalled c queueId jobId := by
  intro e he hdur
  by_contra hne
  obtain ⟨i, hi⟩ := List.getElem?_of_mem he
  obtain ⟨c₁, hexp⟩ : ∃ c₁, c.expire i = some c₁ := by
    rw [← Option.isSome_iff_exists, Collector.expire, hi]
    rfl
  have hget := Collector.get?_globalTimers_expire hexp hi minDelayMsLimit
  rw [if_pos hdur.symm] at hget
  obtain ⟨order, c', hrun, hdone⟩ := exists_all_expired c₁
  obtain ⟨late, hlate, hnot⟩ := not_sent_of_unsubscribed (hc.expire hexp) hget hrun queueId jobId
  obtain ⟨sent, hsent, hmem⟩ := h (i :: order) c' (run_cons.mpr ⟨c₁, hexp, hrun⟩) hdone
  rw [hlate] at hsent
  obtain ⟨first, hfirst, honly⟩ := Collector.exists_sent_expire hexp hi queueId
  rw [hfirst, List.append_assoc] at hsent
  rw [← List.append_cancel_left hsent, List.mem_append] at hmem
  exact hmem.elim (fun h => hne (honly _ h).symm) hnot

theorem registered_of_delivered {c : Collector} {queueId : Uuid} {jobId : ℕ}
    (h : Delivered c queueId jobId) : c.queues.containsKey queueId = true := by
  by_contra hkey
  rw [Bool.not_eq_true] at hkey
  obtain ⟨order, c', hrun, hdone⟩ := exists_all_expired c
  obtain ⟨sent, hsent, hmem⟩ := h order c' hrun hdone
  rw [channel_of_unregistered ((containsKey_run_expire hrun queueId).trans hkey)] at hsent
  rw [(List.append_eq_nil_iff.mp hsent.symm).2] at hmem
  exact List.not_mem_nil hmem

/-! ### What a promotion leaves in the collector -/

theorem sendPromotions_cases (c : Collector) (queueId : Uuid) (jobs : List ℕ) :
    sendPromotions queueId c jobs = c ∨
      ∃ jobId ∈ jobs, sendPromotions queueId c jobs =
        c.receive queueId (.promotedDelayed jobId queueId) := by
  cases hsub : subscribed c queueId with
  | true => exact Or.inl (sendPromotions_of_subscribed hsub jobs)
  | false =>
    cases jobs with
    | nil => exact Or.inl rfl
    | cons jobId jobs =>
      exact Or.inr ⟨jobId, List.mem_cons_self, sendPromotions_of_not_subscribed hsub jobId jobs⟩

theorem sendPromotions_scheduled {c : Collector} (hc : Collector.Scheduled c) (queueId : Uuid)
    (jobs : List ℕ) : Collector.Scheduled (sendPromotions queueId c jobs) := by
  rcases sendPromotions_cases c queueId jobs with h | ⟨jobId, -, h⟩
  · rwa [h]
  · rw [h]
    exact hc.receive queueId _

theorem queues_sendPromotions (c : Collector) (queueId : Uuid) (jobs : List ℕ) :
    (sendPromotions queueId c jobs).queues = c.queues := by
  rcases sendPromotions_cases c queueId jobs with h | ⟨jobId, -, h⟩
  · rw [h]
  · rw [h]
    rfl

theorem mem_delayedQueue_sendPromotions {c : Collector} {e : ℕ × TimerType}
    (he : e ∈ c.delayedQueue) (queueId : Uuid) (jobs : List ℕ) :
    e ∈ (sendPromotions queueId c jobs).delayedQueue := by
  rcases sendPromotions_cases c queueId jobs with h | ⟨jobId, -, h⟩
  · rwa [h]
  · rw [h]
    exact List.mem_append_left _ he

theorem isSome_of_subscribed {c : Collector} {queueId : Uuid} (h : subscribed c queueId = true) :
    (c.globalTimers.get? minDelayMsLimit).isSome := by
  unfold subscribed at h
  cases hget : c.globalTimers.get? minDelayMsLimit with
  | none => simp [hget] at h
  | some subscribers => rfl

theorem subscribed_sendPromotions (c : Collector) (queueId : Uuid) {jobs : List ℕ}
    (hjobs : jobs ≠ []) : subscribed (sendPromotions queueId c jobs) queueId = true := by
  cases hsub : subscribed c queueId with
  | true => rwa [sendPromotions_of_subscribed hsub]
  | false =>
    obtain ⟨jobId, jobs, rfl⟩ := List.exists_cons_of_ne_nil hjobs
    rw [sendPromotions_of_not_subscribed hsub]
    exact subscribed_receive c queueId jobId

theorem scheduled_of_subscribed {c : Collector} {queueId : Uuid} {jobId : ℕ}
    (hc : Collector.Scheduled c) (hsole : Unrivalled c queueId jobId)
    (hsub : subscribed c queueId = true) : Scheduled c queueId jobId := by
  obtain ⟨subscribers, hget⟩ := Option.isSome_iff_exists.mp (isSome_of_subscribed hsub)
  obtain ⟨e, he, hdur⟩ := hc.entries _ _ hget
  obtain rfl : e = (minDelayMsLimit, .promotedDelayed jobId queueId) :=
    Prod.ext hdur (hsole e he hdur)
  exact he

/-- Every job that a promotion takes gets its timer, and the queue gets the timer whatever the
order of expiries, if and only if no other job is taken with it, the queue is registered, and no
other timer of the same duration is scheduled. -/
theorem promoteJobs_delivers_all_iff (q : Queue D R P) (c : Collector) (dateTime : Dt)
    (intervalMs : ℤ) (clock : Clock) (hc : Collector.Scheduled c) :
    (∀ id ∈ q.dueJobs dateTime intervalMs,
        Scheduled (q.promoteJobs c dateTime intervalMs clock).2.2 q.id id ∧
          Delivered (q.promoteJobs c dateTime intervalMs clock).2.2 q.id id) ↔
      ∀ id ∈ q.dueJobs dateTime intervalMs,
        (∀ other ∈ q.dueJobs dateTime intervalMs, other = id) ∧
          c.queues.containsKey q.id = true ∧ Unrivalled c q.id id := by
  rw [promoteJobs_collector]
  have hc' := sendPromotions_scheduled hc q.id (q.dueJobs dateTime intervalMs)
  constructor
  · intro h id hid
    obtain ⟨-, hdelivered⟩ := h id hid
    have hsole := unrivalled_of_delivered hc' hdelivered
    refine ⟨?_, ?_, ?_⟩
    · intro other hother
      have htimer := hsole _ (h other hother).1 rfl
      exact (TimerType.promotedDelayed.inj htimer).1
    · have hkey := registered_of_delivered hdelivered
      rwa [queues_sendPromotions] at hkey
    · intro e he
      exact hsole e (mem_delayedQueue_sendPromotions he _ _)
  · intro h id hid
    obtain ⟨honly, hkey, hsole⟩ := h id hid
    have hscheduled :
        Scheduled (sendPromotions q.id c (q.dueJobs dateTime intervalMs)) q.id id := by
      rw [scheduled_sendPromotions_iff]
      cases hsub : subscribed c q.id with
      | true => exact Or.inl (scheduled_of_subscribed hc hsole hsub)
      | false =>
        obtain ⟨first, rest, hdue⟩ := List.exists_cons_of_ne_nil (List.ne_nil_of_mem hid)
        have hfirst := honly first (hdue ▸ List.mem_cons_self)
        exact Or.inr ⟨rfl, by rw [hdue, hfirst]; rfl⟩
    have hsole' : Unrivalled (sendPromotions q.id c (q.dueJobs dateTime intervalMs)) q.id id := by
      rcases sendPromotions_cases c q.id (q.dueJobs dateTime intervalMs) with hs | ⟨j, hj, hs⟩
      · rwa [hs]
      · rw [hs, honly j hj]
        intro e he hdur
        rcases List.mem_append.mp he with he | he
        · exact hsole e he hdur
        · rw [List.mem_singleton.mp he]
    refine ⟨hscheduled, delivered_of_unrivalled hscheduled ?_ ?_ hsole'⟩
    · rwa [queues_sendPromotions]
    · exact isSome_of_subscribed (subscribed_sendPromotions c q.id (List.ne_nil_of_mem hid))

/-- A fresh queue to which jobs with these delays, in milliseconds, are added at the epoch. -/
def withDelays (delays : List ℕ) : Queue Unit Unit Unit :=
  let q : Queue Unit Unit Unit := Queue.new (.new none "mail") none 7
  (q.bulkAdd (delays.map fun ms => ("mail", some { delay := .timeMilis ms }, ())) ⟨0, 0⟩).2

/-- The collector of the queue and of another one that collects its metrics at this interval. -/
def withMetrics (interval : ℕ) : Collector :=
  ((Collector.new.registerQueue 7).registerQueue 8).receive 8 (.collectMetrics interval)

theorem withMetrics_scheduled (interval : ℕ) : Collector.Scheduled (withMetrics interval) :=
  ((Collector.Scheduled.new.registerQueue 7).registerQueue 8).receive 8 _

/-- One job is due, next to a timer of another duration. -/
theorem oneDelayed_delivered :
    (withDelays [100]).dueJobs 100000 50 = [1] ∧
      ∀ id ∈ (withDelays [100]).dueJobs 100000 50,
        Scheduled ((withDelays [100]).promoteJobs (withMetrics 100) 100000 50 ⟨100000, 100⟩).2.2
            (withDelays [100]).id id ∧
          Delivered ((withDelays [100]).promoteJobs (withMetrics 100) 100000 50 ⟨100000, 100⟩).2.2
            (withDelays [100]).id id :=
  ⟨by decide +kernel, (promoteJobs_delivers_all_iff _ _ _ _ _ (withMetrics_scheduled 100)).mpr
    (by decide +kernel)⟩

/-- Of two jobs that are due at 100 milliseconds the second one leaves the delayed set and gets
no timer. A job that is due alone gets one, but the timer of another queue with the same duration
may expire first, and then the promotion is sent to nobody. -/
theorem promoteJobs_loses_jobs :
    ((withDelays [100, 120]).dueJobs 100000 50 = [1, 2] ∧
      ((withDelays [100, 120]).promoteJobs (withMetrics 100) 100000 50
        ⟨100000, 100⟩).2.1.store.delayed.values = [] ∧
      ¬ Scheduled ((withDelays [100, 120]).promoteJobs (withMetrics 100) 100000 50
        ⟨100000, 100⟩).2.2 (withDelays [100, 120]).id 2) ∧
    ((withDelays [100]).dueJobs 100000 50 = [1] ∧
      ((withDelays [100]).promoteJobs (withMetrics 50) 100000 50
        ⟨100000, 100⟩).2.1.store.delayed.values = [] ∧
      ¬ Delivered ((withDelays [100]).promoteJobs (withMetrics 50) 100000 50
        ⟨100000, 100⟩).2.2 (withDelays [100]).id 1) := by
  refine ⟨by decide +kernel, by decide +kernel, by decide +kernel, fun h => ?_⟩
  have hsole : ¬ Unrivalled ((withDelays [100]).promoteJobs (withMetrics 50) 100000 50
      ⟨100000, 100⟩).2.2 (withDelays [100]).id 1 := by
    decide +kernel
  rw [promoteJobs_collector] at h hsole
  exact hsole (unrivalled_of_delivered
    (sendPromotions_scheduled (withMetrics_scheduled 50) _ _) h)

end Queue

end Kiomq
