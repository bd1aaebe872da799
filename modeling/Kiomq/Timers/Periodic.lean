import Kiomq.Foundations.Runs
import Kiomq.Timers.Collector

/-!
# Periodic timers from one expiry to the next

The collector together with the commands on their way to it and the timer tasks of any
number of queues. A periodic timer travels in a circle: it is scheduled, its expiry
delivers it to the subscribed queues, the timer task of each processes it and sends it
again. Both the expiry and the check before a send look at the duration only, so two
different timers of one duration can push each other out of the circle; in every run
that never brings two such timers together, no timer is lost.
-/

namespace Kiomq

open Foundations

/-- What the timer task of a queue is at. An error of the store leaves its loop. -/
inductive TimerTask
  | idle
  | processing (timer : TimerType)
  | ended
  deriving DecidableEq, Repr

def TimerTask.timers : TimerTask → List TimerType
  | processing timer => [timer]
  | _ => []

structure TimerNetwork where
  collector : Collector
  commands : List (Uuid × TimerType)
  tasks : OrderedMap Uuid TimerTask
  /-- History: the periodic timers accepted for queues that stayed registered since. -/
  accepted : List (Uuid × TimerType)

/-- The steps of the network. A `send` is one of a worker that registers its timers or of
the promotion of a delayed job; `fail` is an error of the store in the timer task. -/
inductive NetworkEvent
  | registerQueue (queueId : Uuid)
  | unregisterQueue (queueId : Uuid)
  | send (queueId : Uuid) (timer : TimerType)
  | receive (i : ℕ)
  | expire (i : ℕ)
  | take (queueId : Uuid)
  | finish (queueId : Uuid)
  | fail (queueId : Uuid)
  deriving DecidableEq, Repr

namespace TimerNetwork

def init : TimerNetwork := ⟨.new, [], .empty, []⟩

/-- `TimerSender::send`: the check, and the command put on its way. The wait for the
acknowledgement is left out, which only adds interleavings. -/
def send (n : TimerNetwork) (queueId : Uuid) (timer : TimerType) : TimerNetwork :=
  if n.collector.timerExists timer queueId then n
  else { n with commands := n.commands ++ [(queueId, timer)] }

/-- The end of `process_timer`: every kind but a promotion is sent again. -/
def rearm (n : TimerNetwork) (queueId : Uuid) : TimerType → TimerNetwork
  | .promotedDelayed _ _ => n
  | .reregisterWorker =>
    { n with collector := n.collector.registerQueue queueId }.send queueId .reregisterWorker
  | timer => n.send queueId timer

/-- Reception of a sent command by the collector. -/
def accept (n : TimerNetwork) (i : ℕ) (command : Uuid × TimerType) : TimerNetwork :=
  { n with
    collector := n.collector.receive command.1 command.2
    commands := n.commands.eraseIdx i
    accepted :=
      if command.2.promoted? = none ∧ n.collector.queues.containsKey command.1 = true then
        command :: n.accepted
      else n.accepted }

def step (n : TimerNetwork) : NetworkEvent → Option TimerNetwork
  | .registerQueue queueId =>
    if n.collector.queues.containsKey queueId then some n
    else some { n with
      collector := n.collector.registerQueue queueId
      tasks := n.tasks.insert queueId .idle }
  | .unregisterQueue queueId =>
    -- the timer task is aborted first
    some { n with
      collector := n.collector.unregisterQueue queueId
      tasks := n.tasks.remove queueId
      accepted := n.accepted.filter fun p => p.1 ≠ queueId }
  | .send queueId timer => some (n.send queueId timer)
  | .receive i => n.commands[i]?.map (n.accept i)
  | .expire i => (n.collector.expire i).map fun c => { n with collector := c }
  | .take queueId =>
    match n.tasks.get? queueId, n.collector.channel queueId with
    | some .idle, timer :: _ =>
      some { n with
        collector := n.collector.takeCommand queueId 0
        tasks := n.tasks.insert queueId (.processing timer) }
    | _, _ => none
  | .finish queueId =>
    match n.tasks.get? queueId with
    | some (.processing timer) =>
      some ({ n with tasks := n.tasks.insert queueId .idle }.rearm queueId timer)
    | _ => none
  | .fail queueId =>
    (n.tasks.get? queueId).map fun _ => { n with tasks := n.tasks.insert queueId .ended }

theorem send_receive (n : TimerNetwork) (queueId : Uuid) (timer : TimerType)
    (h : n.collector.timerExists timer queueId = false) :
    ((n.send queueId timer).step (.receive n.commands.length)).map collector =
      some (n.collector.send queueId timer) := by
  simp [send, step, accept, Collector.send, h]

/-- The timer is on its way around: scheduled with the queue subscribed to its duration,
sent but not received, delivered but not taken, or being processed. -/
inductive Alive (n : TimerNetwork) (queueId : Uuid) (timer : TimerType) : Prop
  | scheduled (subscribers : OrderedMap Uuid Unit)
      (entry : n.collector.globalTimers.get? timer.nextDuration = some subscribers)
      (subscribed : queueId ∈ subscribers.keys)
      (queued : (timer.nextDuration, timer) ∈ n.collector.delayedQueue)
  | sent (command : (queueId, timer) ∈ n.commands)
  | delivered (command : timer ∈ n.collector.channel queueId)
  | processing (task : n.tasks.get? queueId = some (.processing timer))

def timers (n : TimerNetwork) : List TimerType :=
  n.collector.delayedQueue.map Prod.snd ++ n.commands.map Prod.snd ++
    n.collector.queues.values.flatten ++ n.tasks.values.flatMap TimerTask.timers

/-- The two timers may meet in one duration: they are equal, or both are promotions. -/
def Compatible (t u : TimerType) : Prop :=
  t.nextDuration = u.nextDuration →
    t = u ∨ (t.promoted?.isSome = true ∧ u.promoted?.isSome = true)

instance (t u : TimerType) : Decidable (Compatible t u) := by
  unfold Compatible
  infer_instance

/-- A timer is put on its way only next to compatible ones, and the store does not fail. -/
def Undisturbed (n : TimerNetwork) : NetworkEvent → Prop
  | .send queueId timer =>
    n.collector.timerExists timer queueId = true ∨ ∀ u ∈ n.timers, Compatible timer u
  | .fail _ => False
  | _ => True

instance (n : TimerNetwork) (e : NetworkEvent) : Decidable (n.Undisturbed e) := by
  cases e <;> unfold Undisturbed <;> infer_instance

/-! ### The invariant -/

theorem mem_timers_iff (n : TimerNetwork) (t : TimerType) :
    t ∈ n.timers ↔ (∃ d, (d, t) ∈ n.collector.delayedQueue) ∨ (∃ q, (q, t) ∈ n.commands) ∨
      (∃ q, t ∈ n.collector.channel q) ∨ ∃ q, n.tasks.get? q = some (.processing t) := by
  have hchannel : t ∈ n.collector.queues.values.flatten ↔ ∃ q, t ∈ n.collector.channel q := by
    simp only [List.mem_flatten, OrderedMap.values, List.mem_map, Collector.channel]
    constructor
    · rintro ⟨channel, ⟨e, he, rfl⟩, ht⟩
      exact ⟨e.1, by rwa [(n.collector.queues.get?_eq_some_iff e.1 e.2).mpr he]⟩
    · rintro ⟨q, ht⟩
      cases hq : n.collector.queues.get? q with
      | none => simp [hq] at ht
      | some channel =>
        rw [hq] at ht
        exact ⟨channel, ⟨(q, channel), (OrderedMap.get?_eq_some_iff _ _ _).mp hq, rfl⟩, ht⟩
  have htask : t ∈ n.tasks.values.flatMap TimerTask.timers ↔
      ∃ q, n.tasks.get? q = some (.processing t) := by
    simp only [List.mem_flatMap, OrderedMap.values, List.mem_map]
    constructor
    · rintro ⟨task, ⟨e, he, rfl⟩, ht⟩
      obtain ⟨q, task⟩ := e
      cases task with
      | processing timer =>
        obtain rfl : t = timer := by simpa [TimerTask.timers] using ht
        exact ⟨q, (OrderedMap.get?_eq_some_iff _ _ _).mpr he⟩
      | idle => simp [TimerTask.timers] at ht
      | ended => simp [TimerTask.timers] at ht
    · rintro ⟨q, hq⟩
      exact ⟨.processing t, ⟨(q, .processing t), (OrderedMap.get?_eq_some_iff _ _ _).mp hq, rfl⟩,
        by simp [TimerTask.timers]⟩
  simp only [timers, List.mem_append, hchannel, htask, List.mem_map, Prod.exists,
    exists_eq_right, or_assoc]

structure PeriodicInv (n : TimerNetwork) : Prop where
  scheduled : n.collector.Scheduled
  compatible : ∀ t ∈ n.timers, ∀ u ∈ n.timers, Compatible t u
  alive : ∀ p ∈ n.accepted,
    p.2.promoted? = none ∧ n.collector.queues.containsKey p.1 = true ∧ n.Alive p.1 p.2

/-- A step that keeps the schedule, loses no command and no delivery, and lets go of what
is processed only when it is alive otherwise. -/
theorem Alive.frame {n n' : TimerNetwork} {q : Uuid} {t : TimerType} (h : n.Alive q t)
    (hgt : n'.collector.globalTimers = n.collector.globalTimers)
    (hdq : n'.collector.delayedQueue = n.collector.delayedQueue)
    (hcommands : (q, t) ∈ n.commands → (q, t) ∈ n'.commands)
    (hchannel : t ∈ n.collector.channel q → n'.Alive q t)
    (htask : n.tasks.get? q = some (.processing t) → n'.Alive q t) : n'.Alive q t := by
  cases h with
  | scheduled subscribers entry subscribed queued =>
    exact .scheduled subscribers (hgt ▸ entry) subscribed (hdq ▸ queued)
  | sent command => exact .sent (hcommands command)
  | delivered command => exact hchannel command
  | processing task => exact htask task

theorem PeriodicInv.of_subset {n n' : TimerNetwork} (h : n.PeriodicInv)
    (hs : n'.collector.Scheduled) (hsub : ∀ t ∈ n'.timers, t ∈ n.timers)
    (halive : ∀ p ∈ n'.accepted, p.2.promoted? = none ∧
      n'.collector.queues.containsKey p.1 = true ∧ n'.Alive p.1 p.2) : n'.PeriodicInv :=
  ⟨hs, fun t ht u hu => h.compatible t (hsub t ht) u (hsub u hu), halive⟩

/-- A periodic timer shares its duration only with copies of itself. -/
theorem PeriodicInv.eq_of_nextDuration {n : TimerNetwork} (h : n.PeriodicInv) {t u : TimerType}
    (ht : t ∈ n.timers) (hu : u ∈ n.timers) (hperiodic : t.promoted? = none)
    (hd : u.nextDuration = t.nextDuration) : u = t := by
  rcases h.compatible t ht u hu hd.symm with heq | ⟨hp, -⟩
  · exact heq.symm
  · simp [hperiodic] at hp

theorem PeriodicInv.registerQueue {n n' : TimerNetwork} {q : Uuid} (h : n.PeriodicInv)
    (hstep : n.step (.registerQueue q) = some n') : n'.PeriodicInv := by
  simp only [step] at hstep
  split_ifs at hstep with hreg
  · obtain rfl := Option.some.inj hstep
    exact h
  · obtain rfl := Option.some.inj hstep
    have hcollector : n.collector.registerQueue q =
        { n.collector with queues := n.collector.queues.insert q [] } := if_neg hreg
    have hgt : (n.collector.registerQueue q).globalTimers = n.collector.globalTimers := by
      rw [hcollector]
    have hdq : (n.collector.registerQueue q).delayedQueue = n.collector.delayedQueue := by
      rw [hcollector]
    apply h.of_subset
    · exact h.scheduled.congr hdq hgt
    · intro t ht
      rw [mem_timers_iff] at ht ⊢
      simp only [hdq, Collector.channel_registerQueue, OrderedMap.get?_insert] at ht
      refine ht.imp_right (Or.imp_right (Or.imp_right ?_))
      rintro ⟨q', hq'⟩
      split_ifs at hq' with hne
      · simp at hq'
      · exact ⟨q', hq'⟩
    · intro p hp
      obtain ⟨hperiodic, hkey, halive⟩ := h.alive p hp
      have hpq : p.1 ≠ q := by
        rintro rfl
        exact hreg hkey
      refine ⟨hperiodic, ?_, halive.frame hgt hdq id ?_ ?_⟩
      · rw [hcollector, OrderedMap.containsKey_eq, OrderedMap.get?_insert, if_neg hpq,
          ← OrderedMap.containsKey_eq]
        exact hkey
      · intro hch
        apply Alive.delivered
        rw [Collector.channel_registerQueue]
        exact hch
      · intro htask
        apply Alive.processing
        rw [OrderedMap.get?_insert, if_neg hpq]
        exact htask

theorem PeriodicInv.unregisterQueue {n : TimerNetwork} (h : n.PeriodicInv) (q : Uuid) :
    PeriodicInv { n with
      collector := n.collector.unregisterQueue q
      tasks := n.tasks.remove q
      accepted := n.accepted.filter fun p => p.1 ≠ q } := by
  have hchannel : ∀ q', (n.collector.unregisterQueue q).channel q' =
      if q' = q then [] else n.collector.channel q' := by
    intro q'
    simp only [Collector.unregisterQueue, Collector.channel, OrderedMap.get?_remove]
    split_ifs <;> rfl
  apply h.of_subset
  · exact h.scheduled.unregisterQueue q
  · intro t ht
    rw [mem_timers_iff] at ht ⊢
    simp only [hchannel, OrderedMap.get?_remove] at ht
    refine ht.imp_right (Or.imp_right (Or.imp ?_ ?_))
    · rintro ⟨q', hq'⟩
      split_ifs at hq' with hne
      · simp at hq'
      · exact ⟨q', hq'⟩
    · rintro ⟨q', hq'⟩
      split_ifs at hq' with hne
      exact ⟨q', hq'⟩
  · intro p hp
    obtain ⟨hmem, hpq⟩ := List.mem_filter.mp hp
    replace hpq : p.1 ≠ q := by simpa using hpq
    obtain ⟨hperiodic, hkey, halive⟩ := h.alive p hmem
    refine ⟨hperiodic, ?_, ?_⟩
    · simp only [Collector.unregisterQueue, OrderedMap.containsKey_eq, OrderedMap.get?_remove,
        if_neg hpq]
      rw [← OrderedMap.containsKey_eq]
      exact hkey
    · cases halive with
      | scheduled subscribers entry subscribed queued =>
        apply Alive.scheduled (subscribers.remove q)
        · simp only [Collector.unregisterQueue, OrderedMap.get?_mapValues, entry, Option.map_some]
        · rw [OrderedMap.mem_keys] at subscribed ⊢
          obtain ⟨v, hv⟩ := subscribed
          exact ⟨v, by rw [OrderedMap.get?_remove, if_neg hpq, hv]⟩
        · exact queued
      | sent command => exact .sent command
      | delivered command =>
        apply Alive.delivered
        rw [hchannel, if_neg hpq]
        exact command
      | processing task =>
        apply Alive.processing
        rw [OrderedMap.get?_remove, if_neg hpq]
        exact task

theorem mem_timers_send {n : TimerNetwork} {q : Uuid} {t u : TimerType}
    (hu : u ∈ (n.send q t).timers) :
    u ∈ n.timers ∨ (u = t ∧ n.collector.timerExists t q = false) := by
  unfold send at hu
  split_ifs at hu with hex
  · exact Or.inl hu
  · rw [mem_timers_iff] at hu
    rw [mem_timers_iff]
    simp only [List.mem_append, List.mem_singleton, Prod.mk.injEq] at hu
    rcases hu with hu | ⟨q', hu | ⟨-, rfl⟩⟩ | hu
    · exact Or.inl (Or.inl hu)
    · exact Or.inl (Or.inr (Or.inl ⟨q', hu⟩))
    · exact Or.inr ⟨rfl, by simpa using hex⟩
    · exact Or.inl (Or.inr (Or.inr hu))

theorem Alive.send {n : TimerNetwork} {q : Uuid} {t : TimerType} (h : n.Alive q t) (q' : Uuid)
    (t' : TimerType) : (n.send q' t').Alive q t := by
  unfold TimerNetwork.send
  split_ifs
  · exact h
  · refine h.frame rfl rfl ?_ ?_ ?_
    · exact fun hc => List.mem_append_left _ hc
    · exact fun hch => .delivered hch
    · exact fun htask => .processing htask

theorem collector_send (n : TimerNetwork) (q : Uuid) (t : TimerType) :
    (n.send q t).collector = n.collector := by
  unfold send
  split_ifs <;> rfl

theorem accepted_send (n : TimerNetwork) (q : Uuid) (t : TimerType) :
    (n.send q t).accepted = n.accepted := by
  unfold send
  split_ifs <;> rfl

theorem PeriodicInv.send {n : TimerNetwork} (h : n.PeriodicInv) {q : Uuid} {t : TimerType}
    (hguard : n.collector.timerExists t q = true ∨ ∀ u ∈ n.timers, Compatible t u) :
    (n.send q t).PeriodicInv := by
  have hnew : n.collector.timerExists t q = false → ∀ u ∈ n.timers, Compatible t u := by
    intro hex
    exact hguard.resolve_left (by simp [hex])
  have hsymm : ∀ u, Compatible t u → Compatible u t := by
    intro u hu hd
    exact (hu hd.symm).imp Eq.symm And.symm
  constructor
  · rw [collector_send]
    exact h.scheduled
  · intro u hu v hv
    rcases mem_timers_send hu with hold | ⟨hut, hex⟩
    · rcases mem_timers_send hv with hold' | ⟨rfl, hex⟩
      · exact h.compatible u hold v hold'
      · exact hsymm u (hnew hex u hold)
    · rcases mem_timers_send hv with hold' | ⟨hvt, -⟩
      · exact hut ▸ hnew hex v hold'
      · exact fun _ => Or.inl (hut.trans hvt.symm)
  · intro p hp
    rw [accepted_send] at hp
    obtain ⟨hperiodic, hkey, halive⟩ := h.alive p hp
    rw [collector_send]
    exact ⟨hperiodic, hkey, halive.send q t⟩

theorem alive_accept (n : TimerNetwork) (i : ℕ) (q : Uuid) (t : TimerType) :
    (n.accept i (q, t)).Alive q t := by
  apply Alive.scheduled (((n.collector.globalTimers.get? t.nextDuration).getD .empty).insert q ())
  · simp only [accept, Collector.get?_receive, if_true]
  · rw [OrderedMap.mem_keys]
    exact ⟨(), by rw [OrderedMap.get?_insert, if_pos rfl]⟩
  · simp [accept, Collector.receive]

theorem Alive.accept {n : TimerNetwork} {i : ℕ} {q q' : Uuid} {t t' : TimerType}
    (h : n.Alive q' t') (hi : n.commands[i]? = some (q, t)) :
    (n.accept i (q, t)).Alive q' t' := by
  cases h with
  | scheduled subscribers entry subscribed queued =>
    have hqueued : (t'.nextDuration, t') ∈ (n.collector.receive q t).delayedQueue :=
      List.mem_append_left _ queued
    by_cases hd : t'.nextDuration = t.nextDuration
    · apply Alive.scheduled (subscribers.insert q ())
      · simp only [TimerNetwork.accept, Collector.get?_receive, if_pos hd]
        rw [← hd, entry, Option.getD_some]
      · rw [OrderedMap.mem_keys] at subscribed ⊢
        obtain ⟨v, hv⟩ := subscribed
        rw [OrderedMap.get?_insert]
        split_ifs
        · exact ⟨(), rfl⟩
        · exact ⟨v, hv⟩
      · exact hqueued
    · apply Alive.scheduled subscribers
      · simp only [TimerNetwork.accept, Collector.get?_receive, if_neg hd, entry]
      · exact subscribed
      · exact hqueued
  | sent command =>
    obtain ⟨hlt, hget⟩ := List.getElem?_eq_some_iff.mp hi
    have hperm := List.getElem_cons_eraseIdx_perm hlt
    rw [hget] at hperm
    rcases List.mem_cons.mp (hperm.mem_iff.mpr command) with heq | hrest
    · obtain ⟨rfl, rfl⟩ := Prod.mk.inj heq
      exact alive_accept n i q' t'
    · exact .sent hrest
  | delivered command => exact .delivered command
  | processing task => exact .processing task

theorem PeriodicInv.receive {n n' : TimerNetwork} {i : ℕ} (h : n.PeriodicInv)
    (hstep : n.step (.receive i) = some n') : n'.PeriodicInv := by
  obtain ⟨⟨q, t⟩, hi, rfl⟩ := Option.map_eq_some_iff.mp hstep
  have hmem : (q, t) ∈ n.commands := List.mem_of_getElem? hi
  apply h.of_subset
  · exact h.scheduled.receive q t
  · intro u hu
    rw [mem_timers_iff] at hu ⊢
    rcases hu with ⟨d, hu⟩ | ⟨q', hu⟩ | hu
    · rcases List.mem_append.mp hu with hu | hu
      · exact Or.inl ⟨d, hu⟩
      · obtain ⟨-, rfl⟩ : d = t.nextDuration ∧ u = t := by simpa using hu
        exact Or.inr (Or.inl ⟨q, hmem⟩)
    · exact Or.inr (Or.inl ⟨q', List.mem_of_mem_eraseIdx hu⟩)
    · exact Or.inr (Or.inr hu)
  · have hold : ∀ p ∈ n.accepted, p.2.promoted? = none ∧
        n.collector.queues.containsKey p.1 = true ∧ (n.accept i (q, t)).Alive p.1 p.2 := by
      intro p hp
      obtain ⟨hperiodic, hkey, halive⟩ := h.alive p hp
      exact ⟨hperiodic, hkey, halive.accept hi⟩
    intro p hp
    simp only [accept] at hp
    split_ifs at hp with hnew
    · rcases List.mem_cons.mp hp with rfl | hp
      · exact ⟨hnew.1, hnew.2, alive_accept n i q t⟩
      · exact hold p hp
    · exact hold p hp

/-- An accepted timer of the expired duration is a copy of the expired one, and its queue gets
it. -/
theorem PeriodicInv.alive_expire {n : TimerNetwork} {c : Collector} {i : ℕ} {d : ℕ}
    {u : TimerType} (h : n.PeriodicInv) (hexp : n.collector.expire i = some c)
    (hentry : n.collector.delayedQueue[i]? = some (d, u)) {q : Uuid} {t : TimerType}
    (hperiodic : t.promoted? = none) (hkey : n.collector.queues.containsKey q = true)
    (halive : n.Alive q t) : Alive { n with collector := c } q t := by
  have hmem : (d, u) ∈ n.collector.delayedQueue := List.mem_of_getElem? hentry
  have hd : d = u.nextDuration := h.scheduled.durations _ hmem
  have hu : u ∈ n.timers := (mem_timers_iff n u).mpr (Or.inl ⟨d, hmem⟩)
  cases halive with
  | scheduled subscribers entry subscribed queued =>
    have ht : t ∈ n.timers := (mem_timers_iff n t).mpr (Or.inl ⟨_, queued⟩)
    by_cases hdt : t.nextDuration = d
    · obtain rfl : u = t := h.eq_of_nextDuration ht hu hperiodic (hd.symm.trans hdt.symm)
      obtain ⟨e, hentry', -, hchannel⟩ := Collector.channel_expire hexp q
      obtain rfl : e = (d, u) := Option.some.inj (hentry'.symm.trans hentry)
      have htargets : q ∈ (Collector.targets subscribers u).keys := by
        cases u with
        | promotedDelayed jobId queueId => simp [TimerType.promoted?] at hperiodic
        | _ => exact subscribed
      rw [← hdt, entry] at hchannel
      apply Alive.delivered
      simp only at hchannel ⊢
      rw [hchannel, if_pos ⟨htargets, hkey⟩]
      simp
    · apply Alive.scheduled subscribers
      · rw [Collector.get?_globalTimers_expire hexp hentry, if_neg hdt]
        exact entry
      · exact subscribed
      · apply Collector.mem_delayedQueue_of_expire hexp hentry queued
        intro heq
        exact hdt (congrArg Prod.fst heq)
  | sent command => exact .sent command
  | delivered command =>
    apply Alive.delivered
    rcases Collector.channel_expire_cases hexp hentry q with hq | hq
    · exact hq ▸ command
    · exact hq ▸ List.mem_append_left _ command
  | processing task => exact .processing task

theorem PeriodicInv.expire {n n' : TimerNetwork} {i : ℕ} (h : n.PeriodicInv)
    (hstep : n.step (.expire i) = some n') : n'.PeriodicInv := by
  obtain ⟨c, hexp, rfl⟩ := Option.map_eq_some_iff.mp hstep
  obtain ⟨⟨d, u⟩, hentry, hdq, -⟩ := Collector.channel_expire hexp 0
  apply h.of_subset
  · exact h.scheduled.expire hexp
  · intro t ht
    rw [mem_timers_iff] at ht ⊢
    rcases ht with ⟨d', ht⟩ | ht | ⟨q, ht⟩ | ht
    · exact Or.inl ⟨d', List.mem_of_mem_eraseIdx (hdq ▸ ht)⟩
    · exact Or.inr (Or.inl ht)
    · rcases Collector.channel_expire_cases hexp hentry q with hq | hq
      · rw [hq] at ht
        exact Or.inr (Or.inr (Or.inl ⟨q, ht⟩))
      · rw [hq] at ht
        rcases List.mem_append.mp ht with ht | ht
        · exact Or.inr (Or.inr (Or.inl ⟨q, ht⟩))
        · obtain rfl : t = u := by simpa using ht
          exact Or.inl ⟨d, List.mem_of_getElem? hentry⟩
    · exact Or.inr (Or.inr (Or.inr ht))
  · intro p hp
    obtain ⟨hperiodic, hkey, halive⟩ := h.alive p hp
    exact ⟨hperiodic, (Collector.containsKey_expire hexp p.1).trans hkey,
      h.alive_expire hexp hentry hperiodic hkey halive⟩

theorem mem_timers_setTask {n : TimerNetwork} {q : Uuid} {task : TimerTask} {u : TimerType}
    (hu : u ∈ { n with tasks := n.tasks.insert q task }.timers) :
    u ∈ n.timers ∨ u ∈ task.timers := by
  rw [mem_timers_iff] at hu
  rcases hu with hu | hu | hu | ⟨q', hu⟩
  · exact Or.inl ((mem_timers_iff n u).mpr (Or.inl hu))
  · exact Or.inl ((mem_timers_iff n u).mpr (Or.inr (Or.inl hu)))
  · exact Or.inl ((mem_timers_iff n u).mpr (Or.inr (Or.inr (Or.inl hu))))
  · rw [OrderedMap.get?_insert] at hu
    split_ifs at hu with hq
    · right
      rw [Option.some.inj hu]
      simp [TimerTask.timers]
    · exact Or.inl ((mem_timers_iff n u).mpr (Or.inr (Or.inr (Or.inr ⟨q', hu⟩))))

theorem channel_takeCommand {c : Collector} {q : Uuid} {t : TimerType} {rest : List TimerType}
    (h : c.channel q = t :: rest) (q' : Uuid) :
    (c.takeCommand q 0).channel q' = if q' = q then rest else c.channel q' := by
  simp only [Collector.takeCommand, Collector.channel, OrderedMap.get?_modify]
  split_ifs with hne
  · subst hne
    unfold Collector.channel at h
    cases hget : c.queues.get? q' with
    | none => simp [hget] at h
    | some channel =>
      rw [hget, Option.getD_some] at h
      simp [h]
  · rfl

theorem PeriodicInv.take {n n' : TimerNetwork} {q : Uuid} (h : n.PeriodicInv)
    (hstep : n.step (.take q) = some n') : n'.PeriodicInv := by
  simp only [step] at hstep
  split at hstep
  · rename_i t rest htask hq
    obtain rfl := Option.some.inj hstep
    have hchannel := channel_takeCommand hq
    have ht : t ∈ n.timers := by
      rw [mem_timers_iff]
      exact Or.inr (Or.inr (Or.inl ⟨q, by simp [hq]⟩))
    apply h.of_subset
    · exact h.scheduled.congr rfl rfl
    · intro u hu
      have hcases := mem_timers_setTask
        (n := { n with collector := n.collector.takeCommand q 0 }) hu
      rcases hcases with hu | hu
      · rw [mem_timers_iff] at hu ⊢
        simp only [hchannel] at hu
        refine hu.imp_right (Or.imp_right (Or.imp_left ?_))
        rintro ⟨q', hu⟩
        split_ifs at hu with hne
        · exact ⟨q, by simp [hq, hu]⟩
        · exact ⟨q', hu⟩
      · obtain rfl : u = t := by simpa [TimerTask.timers] using hu
        exact ht
    · intro p hp
      obtain ⟨q', t'⟩ := p
      obtain ⟨hperiodic, hkey, halive⟩ := h.alive (q', t') hp
      refine ⟨hperiodic, ?_, ?_⟩
      · simp only [Collector.takeCommand, OrderedMap.containsKey_eq, OrderedMap.get?_modify]
          at hkey ⊢
        split_ifs
        · rwa [Option.isSome_map]
        · exact hkey
      · refine halive.frame rfl rfl id ?_ ?_
        · intro hch
          by_cases hne : q' = q
          · subst hne
            simp only at hch
            rw [hq] at hch
            rcases List.mem_cons.mp hch with rfl | hch
            · apply Alive.processing
              rw [OrderedMap.get?_insert, if_pos rfl]
            · apply Alive.delivered
              simp only [hchannel, if_true]
              exact hch
          · apply Alive.delivered
            simp only [hchannel, if_neg hne]
            exact hch
        · intro hproc
          have hne : q' ≠ q := by
            rintro rfl
            simp only at hproc
            rw [htask] at hproc
            simp at hproc
          apply Alive.processing
          rw [OrderedMap.get?_insert, if_neg hne]
          exact hproc
  · simp at hstep

/-- The end of the processing of a periodic timer: if its send is suppressed, the queue is
subscribed to its duration, under which nothing but a copy of the timer is scheduled. -/
theorem PeriodicInv.sendAgain {n : TimerNetwork} {q : Uuid} {t : TimerType} (h : n.PeriodicInv)
    (htask : n.tasks.get? q = some (.processing t)) (hperiodic : t.promoted? = none)
    {c : Collector} (hgt : c.globalTimers = n.collector.globalTimers)
    (hdq : c.delayedQueue = n.collector.delayedQueue)
    (hchannel : ∀ q', c.channel q' = n.collector.channel q')
    (hkey : ∀ q', n.collector.queues.containsKey q' = true → c.queues.containsKey q' = true) :
    ({ n with collector := c, tasks := n.tasks.insert q .idle }.send q t).PeriodicInv := by
  have ht : t ∈ n.timers := (mem_timers_iff n t).mpr (Or.inr (Or.inr (Or.inr ⟨q, htask⟩)))
  have hsub : ∀ u ∈ { n with collector := c }.timers, u ∈ n.timers := by
    intro u hu
    rw [mem_timers_iff] at hu ⊢
    simpa only [hdq, hchannel] using hu
  set n₁ : TimerNetwork := { n with collector := c, tasks := n.tasks.insert q .idle } with hn₁
  have hself : (n₁.send q t).Alive q t := by
    by_cases hex : n₁.collector.timerExists t q = true
    · rw [TimerNetwork.send, if_pos hex]
      simp only [Collector.timerExists, hn₁, hgt, Option.any_eq_true] at hex
      obtain ⟨subscribers, hentry, hq⟩ := hex
      obtain ⟨⟨d, u⟩, hu, rfl⟩ := h.scheduled.entries _ _ hentry
      have hdu : t.nextDuration = u.nextDuration := h.scheduled.durations _ hu
      have humem : u ∈ n.timers := (mem_timers_iff n u).mpr (Or.inl ⟨_, hu⟩)
      obtain rfl : u = t := h.eq_of_nextDuration ht humem hperiodic hdu.symm
      apply Alive.scheduled subscribers
      · exact hgt ▸ hentry
      · rw [OrderedMap.mem_keys]
        rw [OrderedMap.containsKey_eq, Option.isSome_iff_exists] at hq
        exact hq
      · exact hdq ▸ hu
    · rw [TimerNetwork.send, if_neg hex]
      apply Alive.sent
      simp
  apply h.of_subset
  · rw [collector_send]
    exact h.scheduled.congr hdq hgt
  · intro u hu
    rcases mem_timers_send hu with hu | ⟨rfl, -⟩
    · rcases mem_timers_setTask (n := { n with collector := c }) hu with hu | hu
      · exact hsub u hu
      · simp [TimerTask.timers] at hu
    · exact ht
  · intro p hp
    rw [accepted_send] at hp
    obtain ⟨hperiodic', hkey', halive⟩ := h.alive p hp
    rw [collector_send]
    refine ⟨hperiodic', hkey p.1 hkey', ?_⟩
    by_cases hpq : p = (q, t)
    · rw [hpq]
      exact hself
    · apply Alive.send
      refine halive.frame hgt hdq id ?_ ?_
      · intro hch
        apply Alive.delivered
        rw [hchannel]
        exact hch
      · intro hproc
        have hne : p.1 ≠ q := by
          intro heq
          rw [heq, htask] at hproc
          apply hpq
          simp only [Option.some.injEq, TimerTask.processing.injEq] at hproc
          rw [← heq, hproc]
        apply Alive.processing
        rw [OrderedMap.get?_insert, if_neg hne]
        exact hproc

theorem PeriodicInv.finish {n n' : TimerNetwork} {q : Uuid} (h : n.PeriodicInv)
    (hstep : n.step (.finish q) = some n') : n'.PeriodicInv := by
  simp only [step] at hstep
  split at hstep
  · rename_i t htask
    obtain rfl := Option.some.inj hstep
    cases t with
    | stalledCheck duration => exact h.sendAgain htask rfl rfl rfl (fun _ => rfl) (fun _ => id)
    | extendLock duration => exact h.sendAgain htask rfl rfl rfl (fun _ => rfl) (fun _ => id)
    | collectMetrics duration => exact h.sendAgain htask rfl rfl rfl (fun _ => rfl) (fun _ => id)
    | reregisterWorker =>
      have hkey : ∀ q', n.collector.queues.containsKey q' = true →
          (n.collector.registerQueue q).queues.containsKey q' = true := by
        intro q' hq'
        unfold Collector.registerQueue
        split_ifs
        · exact hq'
        · rw [OrderedMap.containsKey_eq] at hq' ⊢
          rw [OrderedMap.get?_insert]
          split_ifs
          · rfl
          · exact hq'
      apply h.sendAgain htask rfl
      · unfold Collector.registerQueue
        split_ifs <;> rfl
      · unfold Collector.registerQueue
        split_ifs <;> rfl
      · exact n.collector.channel_registerQueue q
      · exact hkey
    | promotedDelayed jobId queueId =>
      apply h.of_subset
      · exact h.scheduled
      · intro u hu
        rcases mem_timers_setTask hu with hu | hu
        · exact hu
        · simp [TimerTask.timers] at hu
      · intro p hp
        obtain ⟨hperiodic, hkey, halive⟩ := h.alive p hp
        refine ⟨hperiodic, hkey, halive.frame rfl rfl id (fun hch => .delivered hch) ?_⟩
        intro hproc
        have hne : p.1 ≠ q := by
          intro heq
          rw [heq, htask] at hproc
          simp only [Option.some.injEq, TimerTask.processing.injEq] at hproc
          rw [← hproc] at hperiodic
          simp [TimerType.promoted?] at hperiodic
        apply Alive.processing
        simp only [rearm]
        rw [OrderedMap.get?_insert, if_neg hne]
        exact hproc
  · simp at hstep

end TimerNetwork

end Kiomq
