import Kiomq.Queue.Queue

/-!
# The global timer collector

All queues of a process share one collector. It keeps the registered queues with
the commands that wait in their channels, the queues subscribed to each duration,
and the scheduled timers. Deadlines are not kept: every scheduled timer may expire
next, which covers all orders of expiry.
-/

namespace Kiomq

open Foundations

/-- The timers; a duration is in milliseconds. -/
inductive TimerType
  | stalledCheck (duration : ℕ)
  | extendLock (duration : ℕ)
  | promotedDelayed (jobId : ℕ) (queueId : Uuid)
  | collectMetrics (duration : ℕ)
  | reregisterWorker
  deriving DecidableEq, Repr

/-- How long the state of a worker is retained, in milliseconds. -/
def workerStateTtl : ℕ := 100000

namespace TimerType

def nextDuration : TimerType → ℕ
  | stalledCheck duration => duration
  | extendLock duration => duration
  | collectMetrics duration => duration
  | promotedDelayed _ _ => minDelayMsLimit
  | reregisterWorker => workerStateTtl

/-- The job that a promotion timer stands for. -/
def promoted? : TimerType → Option ℕ
  | promotedDelayed jobId _ => some jobId
  | _ => none

end TimerType

structure Collector where
  queues : OrderedMap Uuid (List TimerType)
  globalTimers : OrderedMap ℕ (OrderedMap Uuid Unit)
  delayedQueue : List (ℕ × TimerType)

namespace Collector

def new : Collector := ⟨.empty, .empty, []⟩

def registerQueue (c : Collector) (queueId : Uuid) : Collector :=
  if c.queues.containsKey queueId then c else { c with queues := c.queues.insert queueId [] }

/-- The queue leaves the registry and all subscriptions; its timers stay scheduled. -/
def unregisterQueue (c : Collector) (queueId : Uuid) : Collector :=
  { c with
    queues := c.queues.remove queueId
    globalTimers := c.globalTimers.mapValues fun subscribers => subscribers.remove queueId }

/-- Whether the queue is subscribed to the duration of the timer. -/
def timerExists (c : Collector) (timer : TimerType) (queueId : Uuid) : Bool :=
  (c.globalTimers.get? timer.nextDuration).any fun subscribers => subscribers.containsKey queueId

/-- Reception of a command: subscribe the queue to the duration and schedule the timer, which is to
be in the range of the delay queue. -/
def receive (c : Collector) (queueId : Uuid) (timer : TimerType) : Collector :=
  let duration := timer.nextDuration
  let subscribers := (c.globalTimers.get? duration).getD .empty
  { c with
    globalTimers := c.globalTimers.insert duration (subscribers.insert queueId ())
    delayedQueue := c.delayedQueue ++ [(duration, timer)] }

/-- `TimerSender::send`: a timer is not sent when the queue is subscribed already. -/
def send (c : Collector) (queueId : Uuid) (timer : TimerType) : Collector :=
  if c.timerExists timer queueId then c else c.receive queueId timer

/-- Deliver a command to the channels of the targets that are registered. -/
def deliverTo (queues : OrderedMap Uuid (List TimerType)) (targets : List Uuid)
    (timer : TimerType) : OrderedMap Uuid (List TimerType) :=
  targets.foldl (fun qs t => qs.modify t fun channel => channel ++ [timer]) queues

/-- The queues that an expiring timer is sent to. -/
def targets (subscribers : OrderedMap Uuid Unit) (timer : TimerType) : OrderedMap Uuid Unit :=
  match timer with
  | .promotedDelayed _ queueId => subscribers.insert queueId ()
  | _ => subscribers

/-- Expiry of the scheduled timer at position `i`: the subscriptions of its duration
are dropped, and the timer is sent to the queues that held them. -/
def expire (c : Collector) (i : ℕ) : Option Collector :=
  c.delayedQueue[i]?.map fun entry =>
    let rest := c.delayedQueue.eraseIdx i
    match c.globalTimers.get? entry.1 with
    | none => { c with delayedQueue := rest }
    | some subscribers =>
      { queues := deliverTo c.queues (targets subscribers entry.2).keys entry.2
        globalTimers := c.globalTimers.remove entry.1
        delayedQueue := rest }

/-- The commands waiting in the channel of a queue. -/
def channel (c : Collector) (queueId : Uuid) : List TimerType := (c.queues.get? queueId).getD []

/-- The jobs whose promotion has not reached the queue yet. -/
def pendingPromotions (c : Collector) (queueId : Uuid) : List ℕ :=
  (c.delayedQueue.map Prod.snd).filterMap TimerType.promoted? ++
    (c.channel queueId).filterMap TimerType.promoted?

/-- Take the command at position `i` out of the channel of a queue. -/
def takeCommand (c : Collector) (queueId : Uuid) (i : ℕ) : Collector :=
  { c with queues := c.queues.modify queueId fun channel => channel.eraseIdx i }

theorem get?_deliverTo (queues : OrderedMap Uuid (List TimerType)) (ts : List Uuid)
    (timer : TimerType) (hnodup : ts.Nodup) (q : Uuid) :
    (deliverTo queues ts timer).get? q =
      if q ∈ ts then (queues.get? q).map fun channel => channel ++ [timer] else queues.get? q := by
  induction ts generalizing queues with
  | nil => simp [deliverTo]
  | cons t ts ih =>
    obtain ⟨ht, hts⟩ := List.nodup_cons.mp hnodup
    have hstep : deliverTo queues (t :: ts) timer =
      deliverTo (queues.modify t fun channel => channel ++ [timer]) ts timer := rfl
    rw [hstep, ih _ hts, OrderedMap.get?_modify]
    by_cases hq : q = t
    · subst hq
      simp [ht]
    · simp [hq]

theorem channel_expire {c c' : Collector} {i : ℕ} (h : c.expire i = some c') (q : Uuid) :
    ∃ entry, c.delayedQueue[i]? = some entry ∧ c'.delayedQueue = c.delayedQueue.eraseIdx i ∧
      c'.channel q =
        match c.globalTimers.get? entry.1 with
        | none => c.channel q
        | some subscribers =>
          if q ∈ (targets subscribers entry.2).keys ∧ c.queues.containsKey q = true then
            c.channel q ++ [entry.2]
          else c.channel q := by
  unfold expire at h
  obtain ⟨entry, hentry, h⟩ := Option.map_eq_some_iff.mp h
  refine ⟨entry, hentry, ?_⟩
  cases hg : c.globalTimers.get? entry.1 with
  | none =>
    simp only [hg] at h
    subst h
    exact ⟨rfl, rfl⟩
  | some subscribers =>
    simp only [hg] at h
    subst h
    refine ⟨rfl, ?_⟩
    simp only [channel]
    rw [get?_deliverTo _ _ _ (OrderedMap.nodup_keys _), OrderedMap.containsKey_eq]
    by_cases hq : q ∈ (targets subscribers entry.2).keys
    · cases hc : c.queues.get? q <;> simp [hq]
    · simp [hq]

theorem containsKey_expire {c c' : Collector} {i : ℕ} (h : c.expire i = some c') (q : Uuid) :
    c'.queues.containsKey q = c.queues.containsKey q := by
  unfold expire at h
  obtain ⟨entry, -, rfl⟩ := Option.map_eq_some_iff.mp h
  cases c.globalTimers.get? entry.1 with
  | none => rfl
  | some subscribers =>
    simp only [OrderedMap.containsKey_eq]
    rw [get?_deliverTo _ _ _ (OrderedMap.nodup_keys _)]
    split_ifs
    · rw [Option.isSome_map]
    · rfl

theorem channel_expire_cases {c c' : Collector} {i : ℕ} {d : ℕ} {u : TimerType}
    (hexp : c.expire i = some c') (hentry : c.delayedQueue[i]? = some (d, u)) (q : Uuid) :
    c'.channel q = c.channel q ∨ c'.channel q = c.channel q ++ [u] := by
  obtain ⟨entry, hentry', -, hchannel⟩ := channel_expire hexp q
  obtain rfl : entry = (d, u) := Option.some.inj (hentry'.symm.trans hentry)
  rw [hchannel]
  split
  · exact Or.inl rfl
  · split_ifs
    · exact Or.inr rfl
    · exact Or.inl rfl

/-- An expiry sends nothing but the timer that has expired. -/
theorem exists_sent_expire {c c' : Collector} {i : ℕ} {entry : ℕ × TimerType}
    (hexp : c.expire i = some c') (hentry : c.delayedQueue[i]? = some entry) (q : Uuid) :
    ∃ sent, c'.channel q = c.channel q ++ sent ∧ ∀ timer ∈ sent, timer = entry.2 := by
  rcases channel_expire_cases hexp hentry q with h | h
  · exact ⟨[], h.trans (List.append_nil _).symm, nofun⟩
  · exact ⟨[entry.2], h, fun _ => List.mem_singleton.mp⟩

theorem get?_receive (c : Collector) (queueId : Uuid) (timer : TimerType) (d : ℕ) :
    (c.receive queueId timer).globalTimers.get? d =
      if d = timer.nextDuration then
        some (((c.globalTimers.get? timer.nextDuration).getD .empty).insert queueId ())
      else c.globalTimers.get? d := by
  simp only [receive, OrderedMap.get?_insert]

/-- What the expiry of a timer does to the subscriptions: those of its duration go. -/
theorem get?_globalTimers_expire {c c' : Collector} {i : ℕ} {entry : ℕ × TimerType}
    (h : c.expire i = some c') (hentry : c.delayedQueue[i]? = some entry) (d : ℕ) :
    c'.globalTimers.get? d = if d = entry.1 then none else c.globalTimers.get? d := by
  unfold expire at h
  rw [hentry, Option.map_some, Option.some.injEq] at h
  subst h
  cases hg : c.globalTimers.get? entry.1 with
  | none =>
    split_ifs with hd
    · exact hd ▸ hg
    · rfl
  | some subscribers => exact OrderedMap.get?_remove _ _ _

/-! ### The schedule backs the subscriptions -/

/-- Each timer is scheduled under its own duration, and queues are subscribed only to
durations for which a timer is scheduled. -/
structure Scheduled (c : Collector) : Prop where
  durations : ∀ e ∈ c.delayedQueue, e.1 = e.2.nextDuration
  entries : ∀ d subscribers, c.globalTimers.get? d = some subscribers →
    ∃ e ∈ c.delayedQueue, e.1 = d

theorem Scheduled.new : Scheduled Collector.new := by
  constructor
  · simp [Collector.new]
  · intro d subscribers hd
    simp [Collector.new, OrderedMap.get?] at hd

theorem Scheduled.congr {c c' : Collector} (h : Scheduled c)
    (hdq : c'.delayedQueue = c.delayedQueue) (hgt : c'.globalTimers = c.globalTimers) :
    Scheduled c' := by
  constructor
  · rw [hdq]
    exact h.durations
  · rw [hdq, hgt]
    exact h.entries

theorem Scheduled.registerQueue {c : Collector} (h : Scheduled c) (queueId : Uuid) :
    Scheduled (c.registerQueue queueId) := by
  unfold Collector.registerQueue
  split_ifs
  · exact h
  · exact h.congr rfl rfl

theorem Scheduled.unregisterQueue {c : Collector} (h : Scheduled c) (queueId : Uuid) :
    Scheduled (c.unregisterQueue queueId) := by
  constructor
  · exact h.durations
  · intro d subscribers hd
    simp only [Collector.unregisterQueue, OrderedMap.get?_mapValues] at hd
    obtain ⟨before, hbefore, -⟩ := Option.map_eq_some_iff.mp hd
    exact h.entries d before hbefore

theorem Scheduled.receive {c : Collector} (h : Scheduled c) (queueId : Uuid) (timer : TimerType) :
    Scheduled (c.receive queueId timer) := by
  constructor
  · intro e he
    rcases List.mem_append.mp he with he | he
    · exact h.durations e he
    · obtain rfl : e = (timer.nextDuration, timer) := by simpa using he
      rfl
  · intro d subscribers hd
    rw [get?_receive] at hd
    by_cases hdur : d = timer.nextDuration
    · exact ⟨(timer.nextDuration, timer), by simp [Collector.receive], hdur.symm⟩
    · rw [if_neg hdur] at hd
      obtain ⟨e, he, hed⟩ := h.entries d subscribers hd
      exact ⟨e, by simp [Collector.receive, he], hed⟩

/-- A timer that is still scheduled after an expiry was scheduled before, and of the
timers before only the expired one may be missing. -/
theorem mem_delayedQueue_of_expire {c c' : Collector} {i : ℕ} {entry e : ℕ × TimerType}
    (h : c.expire i = some c') (hentry : c.delayedQueue[i]? = some entry)
    (he : e ∈ c.delayedQueue) (hne : e ≠ entry) : e ∈ c'.delayedQueue := by
  obtain ⟨-, -, hdq, -⟩ := channel_expire h 0
  obtain ⟨hi, hget⟩ := List.getElem?_eq_some_iff.mp hentry
  have hperm := List.getElem_cons_eraseIdx_perm hi
  rw [hget] at hperm
  rw [hdq]
  exact (List.mem_cons.mp (hperm.mem_iff.mpr he)).resolve_left hne

theorem Scheduled.expire {c c' : Collector} (h : Scheduled c) {i : ℕ}
    (hexp : c.expire i = some c') : Scheduled c' := by
  obtain ⟨entry, hentry, hdq, -⟩ := channel_expire hexp 0
  constructor
  · intro e he
    rw [hdq] at he
    exact h.durations e (List.mem_of_mem_eraseIdx he)
  · intro d subscribers hd
    rw [get?_globalTimers_expire hexp hentry] at hd
    split_ifs at hd with hne
    obtain ⟨e, he, hed⟩ := h.entries d subscribers hd
    refine ⟨e, mem_delayedQueue_of_expire hexp hentry he ?_, hed⟩
    rintro rfl
    exact hne hed.symm

theorem channel_registerQueue (c : Collector) (queueId q : Uuid) :
    (c.registerQueue queueId).channel q = c.channel q := by
  unfold registerQueue
  split_ifs with h
  · rfl
  · rw [OrderedMap.containsKey_eq, Option.not_isSome_iff_eq_none] at h
    simp only [channel, OrderedMap.get?_insert]
    split_ifs with hq
    · rw [hq, h]
      rfl
    · rfl

end Collector

end Kiomq
