import Kiomq.Stores.TimedRuns

/-!
# How long metrics live

The in-memory store keeps the last metrics of every worker and of every process in two timed
maps. Metrics for a key that is still visible overwrite the value in place, and the deadline of
the entry stays what it was; otherwise a new entry is inserted with its own deadline. The run of
stores, fetches and purges is compared with one in which the metrics stored last count, until
their time to live is over.
-/

namespace Kiomq

open Foundations

structure WorkerMetrics (T : Type) where
  workerId : Uuid
  activeLen : ℕ
  tasks : List T
  lastUpdated : Dt
  ttlMs : ℕ
  deriving DecidableEq, Repr

/-- The constructor stamps the metrics with the time at which it is called. -/
def WorkerMetrics.new {T : Type} (workerId : Uuid) (activeLen : ℕ) (tasks : List T) (ttl : ℕ)
    (utc : Dt) : WorkerMetrics T :=
  ⟨workerId, activeLen, tasks, utc, ttl⟩

structure ProcessMetrics (S : Type) where
  pid : ℕ
  snapshot : S

namespace TimedMap

variable {κ V : Type} [LinearOrder κ]

def lenExpired (m : TimedMap κ V) : ℕ := m.inner.entries.countP fun e => !e.2.isConstant

/-- Overwrite the value of a visible entry behind its mutex, or insert a new entry. -/
def storeMetrics (m : TimedMap κ V) (key : κ) (metrics : V) (ttlMs now : ℕ) : TimedMap κ V :=
  match m.get key now with
  | (some _, found) =>
    { found with inner := found.inner.modify key (ExpiryValue.map fun _ => metrics) }
  | (none, rest) => rest.insertExpirable key metrics ttlMs now

def purgeIfAny (m : TimedMap κ V) (reading : κ → ℕ) : TimedMap κ V :=
  if 0 < m.lenExpired then m.purgeExpired reading else m

end TimedMap

structure MetricsStore (T S : Type) where
  workerMetrics : TimedMap Uuid (WorkerMetrics T)
  processMetrics : TimedMap ℕ (ProcessMetrics S)

namespace MetricsStore

variable {T S : Type}

def new : MetricsStore T S := ⟨.new, .new⟩

def storeWorkerMetrics (s : MetricsStore T S) (metrics : WorkerMetrics T) (ttlMs now : ℕ) :
    MetricsStore T S :=
  { s with workerMetrics := s.workerMetrics.storeMetrics metrics.workerId metrics ttlMs now }

def storeProcessMetrics (s : MetricsStore T S) (metrics : ProcessMetrics S) (ttlMs now : ℕ) :
    MetricsStore T S :=
  { s with processMetrics := s.processMetrics.storeMetrics metrics.pid metrics ttlMs now }

/-- The metrics are built anew for the answer; `utc` is the time for each of them. -/
def fetchWorkerMetrics (s : MetricsStore T S) (reading : Uuid → ℕ) (utc : Uuid → Dt) :
    List (Uuid × WorkerMetrics T) × MetricsStore T S :=
  let out := s.workerMetrics.iter reading
  (out.1.map fun e =>
      (e.1, .new e.2.workerId e.2.activeLen e.2.tasks e.2.ttlMs (utc e.1)),
    { s with workerMetrics := out.2 })

def fetchProcessMetrics (s : MetricsStore T S) (reading : ℕ → ℕ) :
    List (ℕ × ProcessMetrics S) × MetricsStore T S :=
  let out := s.processMetrics.iter reading
  (out.1, { s with processMetrics := out.2 })

def purgeExpired (s : MetricsStore T S) (workers : Uuid → ℕ) (processes : ℕ → ℕ) :
    MetricsStore T S :=
  ⟨s.workerMetrics.purgeIfAny workers, s.processMetrics.purgeIfAny processes⟩

end MetricsStore

/-! ### One map of metrics -/

namespace TimedMap

variable {κ V : Type} [LinearOrder κ]

/-- A visible entry is to expire just when the new metrics are. -/
def DeadlineMet (m : TimedMap κ V) (key : κ) (ttlMs now : ℕ) : Prop :=
  ∀ found, m.inner.get? key = some found → found.isExpired now = false →
    found.timed.deadline = WithTop.some (now + ttlMs)

theorem storeMetrics_of_visible {m : TimedMap κ V} {key : κ} {found : ExpiryValue V} {now : ℕ}
    (hfound : m.inner.get? key = some found) (hlive : found.isExpired now = false) (metrics : V)
    (ttlMs : ℕ) : (m.storeMetrics key metrics ttlMs now).content =
      m.content.insert key metrics found.timed.deadline := by
  have hget : m.get key now = (some found.get, m) := by simp [get, hfound, hlive]
  funext key'
  simp only [storeMetrics, hget, content, OrderedMap.get?_modify, ExpiringMap.insert]
  by_cases hkey : key' = key
  · rw [if_pos hkey, if_pos hkey, hkey, hfound]
    cases found <;> rfl
  · rw [if_neg hkey, if_neg hkey]

theorem storeMetrics_of_invisible {m : TimedMap κ V} {key : κ} {now : ℕ}
    (h : (m.get key now).1 = none) (metrics : V) (ttlMs : ℕ) :
    m.storeMetrics key metrics ttlMs now =
      (m.get key now).2.insertExpirable key metrics ttlMs now := by
  unfold storeMetrics
  split
  · rename_i heq
    rw [heq] at h
    cases h
  · rename_i heq
    rw [heq]

theorem disableExpiration_storeMetrics (m : TimedMap κ V) (key : κ) (metrics : V)
    (ttlMs now : ℕ) :
    (m.storeMetrics key metrics ttlMs now).disableExpiration = m.disableExpiration := by
  have hget := m.disableExpiration_get key now
  unfold storeMetrics
  split
  · rename_i heq
    rw [heq] at hget
    exact hget
  · rename_i heq
    rw [heq] at hget
    rw [disableExpiration_insertExpirable]
    exact hget

theorem disableExpiration_purgeIfAny (m : TimedMap κ V) (reading : κ → ℕ) :
    (m.purgeIfAny reading).disableExpiration = m.disableExpiration := by
  unfold purgeIfAny purgeExpired
  split_ifs <;> rfl

theorem DeadlineMet.sameFrom {m : TimedMap κ V} {l : ExpiringMap ℕ κ V} {key : κ} {ttlMs now : ℕ}
    (h : m.DeadlineMet key ttlMs now) (henabled : m.disableExpiration = false)
    (hsame : ExpiringMap.SameFrom now m.content l) (metrics : V) :
    ExpiringMap.SameFrom now (m.storeMetrics key metrics ttlMs now).content
      (l.insert key metrics (WithTop.some (now + ttlMs))) := by
  cases hget : (m.get key now).1 with
  | none =>
    rw [storeMetrics_of_invisible hget,
      content_insertExpirable ((m.disableExpiration_get key now).trans henabled)]
    exact (hsame.evicted (m.evicted_get key now)).insert key metrics _
  | some val =>
    rw [get_fst, visible_content_eq_some_iff] at hget
    obtain ⟨found, hfound, hlive, -⟩ := hget
    rw [storeMetrics_of_visible hfound hlive, h found hfound hlive]
    exact hsame.insert key metrics _

/-- If they do not, there is a time at which just one of the two is visible. -/
theorem exists_visible_ne {m : TimedMap κ V} {key : κ} {ttlMs now : ℕ}
    (h : ¬ m.DeadlineMet key ttlMs now) (l : ExpiringMap ℕ κ V) (metrics : V) :
    ∃ later, now ≤ later ∧
      ((m.storeMetrics key metrics ttlMs now).content.visible later key).isSome ≠
        ((l.insert key metrics (WithTop.some (now + ttlMs))).visible later key).isSome := by
  unfold DeadlineMet at h
  push Not at h
  obtain ⟨found, hfound, hlive, hne⟩ := h
  simp only [storeMetrics_of_visible hfound hlive, ExpiringMap.visible_insert_self]
  rcases hne.lt_or_gt with hsooner | hlater
  · -- The entry expires before the new metrics do.
    obtain ⟨expiresAt, hdeadline⟩ := WithTop.ne_top_iff_exists.mp (ne_top_of_lt hsooner)
    have hnow : now < expiresAt := by
      have hgt := lt_of_not_ge fun hle => by
        rw [(found.isExpired_iff now).mpr hle] at hlive
        cases hlive
      rwa [← hdeadline, WithTop.coe_lt_coe] at hgt
    refine ⟨expiresAt, hnow.le, ?_⟩
    rw [← hdeadline] at hsooner ⊢
    rw [if_neg (lt_irrefl _), if_pos hsooner]
    exact Bool.false_ne_true
  · refine ⟨now + ttlMs, Nat.le_add_right _ _, ?_⟩
    rw [if_pos hlater, if_neg (lt_irrefl _)]
    exact Bool.false_ne_true.symm

theorem sameFrom_purgeIfAny {m : TimedMap κ V} {l : ExpiringMap ℕ κ V} {now span : ℕ}
    (hsame : ExpiringMap.SameFrom now m.content l) {reading : κ → ℕ}
    (hreading : ∀ key, reading key ≤ now + span) :
    ExpiringMap.SameFrom (now + span) (m.purgeIfAny reading).content l := by
  have hlater := hsame.later (Nat.le_add_right now span)
  unfold purgeIfAny purgeExpired
  split_ifs
  · exact hlater
  · exact hlater.evicted (m.evicted_unexpired hreading)
  · exact hlater

end TimedMap

/-! ### Runs of stores, fetches and purges -/

/-- A fetch or a purge takes `span` milliseconds and comes to a key after `delay` of them. -/
inductive MetricsAction (T S : Type)
  | storeWorker (metrics : WorkerMetrics T) (ttlMs : ℕ)
  | storeProcess (metrics : ProcessMetrics S) (ttlMs : ℕ)
  | fetchWorkers (span : ℕ) (delay : Uuid → ℕ) (utc : Uuid → Dt)
  | fetchProcesses (span : ℕ) (delay : ℕ → ℕ)
  | purge (span : ℕ) (workers : Uuid → ℕ) (processes : ℕ → ℕ)
  | tick (ms : ℕ)

/-- The store at an instant, and for every worker and process the metrics that were stored last
with the end of their time to live. -/
structure MetricsRun (T S : Type) where
  store : MetricsStore T S
  now : ℕ
  workers : ExpiringMap ℕ Uuid (WorkerMetrics T)
  processes : ExpiringMap ℕ ℕ (ProcessMetrics S)

namespace MetricsRun

variable {T S : Type}

/-- The clock reading for a key in a fetch or purge that begins now. -/
def reading (r : MetricsRun T S) (span : ℕ) (delay : ℕ → ℕ) (key : ℕ) : ℕ :=
  r.now + min (delay key) span

def step (r : MetricsRun T S) : MetricsAction T S → Option (MetricsRun T S)
  | .storeWorker metrics ttlMs =>
    some { r with
      store := r.store.storeWorkerMetrics metrics ttlMs r.now
      workers := r.workers.insert metrics.workerId metrics (WithTop.some (r.now + ttlMs)) }
  | .storeProcess metrics ttlMs =>
    some { r with
      store := r.store.storeProcessMetrics metrics ttlMs r.now
      processes := r.processes.insert metrics.pid metrics (WithTop.some (r.now + ttlMs)) }
  | .fetchWorkers span delay utc =>
    some { r with
      store := (r.store.fetchWorkerMetrics (r.reading span delay) utc).2
      now := r.now + span }
  | .fetchProcesses span delay =>
    some { r with
      store := (r.store.fetchProcessMetrics (r.reading span delay)).2
      now := r.now + span }
  | .purge span workers processes =>
    some { r with
      store := r.store.purgeExpired (r.reading span workers) (r.reading span processes)
      now := r.now + span }
  | .tick ms => some { r with now := r.now + ms }

/-- A fetch from now on, whenever it comes to a key, finds the metrics of the key just as long
as the time to live of those stored last is not over, and finds those. Metrics of workers are
stamped by the fetch. -/
structure Refreshed (r : MetricsRun T S) : Prop where
  workers : ∀ reading utc, (∀ id, r.now ≤ reading id) → ∀ id metrics,
    (id, metrics) ∈ (r.store.fetchWorkerMetrics reading utc).1 ↔
      ∃ stored, r.workers.visible (reading id) id = some stored ∧
        metrics = { stored with lastUpdated := utc id }
  processes : ∀ reading, (∀ pid, r.now ≤ reading pid) → ∀ pid metrics,
    (pid, metrics) ∈ (r.store.fetchProcessMetrics reading).1 ↔
      r.processes.visible (reading pid) pid = some metrics

/-- A fetch returns the metrics just as they were stored. -/
def FetchedAsStored (r : MetricsRun T S) : MetricsAction T S → Prop
  | .fetchWorkers span delay utc => ∀ id metrics,
    (id, metrics) ∈ (r.store.fetchWorkerMetrics (r.reading span delay) utc).1 ↔
      r.workers.visible (r.reading span delay id) id = some metrics
  | .fetchProcesses span delay => ∀ pid metrics,
    (pid, metrics) ∈ (r.store.fetchProcessMetrics (r.reading span delay)).1 ↔
      r.processes.visible (r.reading span delay pid) pid = some metrics
  | _ => True

/-- Metrics are stored when there is no visible entry, or one that expires at the same time. -/
def Refreshes (r : MetricsRun T S) : MetricsAction T S → Prop
  | .storeWorker metrics ttlMs =>
    r.store.workerMetrics.DeadlineMet metrics.workerId ttlMs r.now
  | .storeProcess metrics ttlMs => r.store.processMetrics.DeadlineMet metrics.pid ttlMs r.now
  | _ => True

/-- Metrics of workers are fetched at the time that they are stamped with. -/
def Stamped (r : MetricsRun T S) : MetricsAction T S → Prop
  | .fetchWorkers span delay utc => ∀ id found,
    r.store.workerMetrics.inner.get? id = some found →
      found.isExpired (r.reading span delay id) = false → found.get.lastUpdated = utc id
  | _ => True

def Enabled (r : MetricsRun T S) : Prop :=
  r.store.workerMetrics.disableExpiration = false ∧
    r.store.processMetrics.disableExpiration = false

structure Inv (r : MetricsRun T S) : Prop where
  enabled : r.Enabled
  workers : ExpiringMap.SameFrom r.now r.store.workerMetrics.content r.workers
  processes : ExpiringMap.SameFrom r.now r.store.processMetrics.content r.processes

theorem reading_le (r : MetricsRun T S) (span : ℕ) (delay : ℕ → ℕ) (key : ℕ) :
    r.reading span delay key ≤ r.now + span := by
  unfold reading
  omega

theorem le_reading (r : MetricsRun T S) (span : ℕ) (delay : ℕ → ℕ) (key : ℕ) :
    r.now ≤ r.reading span delay key := by
  unfold reading
  omega

theorem step_enabled (r : MetricsRun T S) (a : MetricsAction T S) (t : MetricsRun T S)
    (h : r.Enabled) (hstep : r.step a = some t) : t.Enabled := by
  cases a with
  | storeWorker metrics ttlMs =>
    obtain rfl := Option.some.inj hstep
    exact ⟨(TimedMap.disableExpiration_storeMetrics ..).trans h.1, h.2⟩
  | storeProcess metrics ttlMs =>
    obtain rfl := Option.some.inj hstep
    exact ⟨h.1, (TimedMap.disableExpiration_storeMetrics ..).trans h.2⟩
  | purge span workers processes =>
    obtain rfl := Option.some.inj hstep
    exact ⟨(TimedMap.disableExpiration_purgeIfAny ..).trans h.1,
      (TimedMap.disableExpiration_purgeIfAny ..).trans h.2⟩
  | _ =>
    obtain rfl := Option.some.inj hstep
    exact h

theorem step_inv (r : MetricsRun T S) (a : MetricsAction T S) (t : MetricsRun T S) (h : r.Inv)
    (hrefreshes : r.Refreshes a) (hstep : r.step a = some t) : t.Inv := by
  have henabled := step_enabled r a t h.enabled hstep
  cases a with
  | storeWorker metrics ttlMs =>
    obtain rfl := Option.some.inj hstep
    exact ⟨henabled, hrefreshes.sameFrom h.enabled.1 h.workers metrics, h.processes⟩
  | storeProcess metrics ttlMs =>
    obtain rfl := Option.some.inj hstep
    exact ⟨henabled, h.workers, hrefreshes.sameFrom h.enabled.2 h.processes metrics⟩
  | fetchWorkers span delay utc =>
    obtain rfl := Option.some.inj hstep
    have hevicted := r.store.workerMetrics.evicted_unexpired (r.reading_le span delay)
    exact ⟨henabled, (h.workers.later (Nat.le_add_right _ span)).evicted hevicted,
      h.processes.later (Nat.le_add_right _ span)⟩
  | fetchProcesses span delay =>
    obtain rfl := Option.some.inj hstep
    have hevicted := r.store.processMetrics.evicted_unexpired (r.reading_le span delay)
    exact ⟨henabled, h.workers.later (Nat.le_add_right _ span),
      (h.processes.later (Nat.le_add_right _ span)).evicted hevicted⟩
  | purge span workers processes =>
    obtain rfl := Option.some.inj hstep
    exact ⟨henabled, TimedMap.sameFrom_purgeIfAny h.workers (r.reading_le span workers),
      TimedMap.sameFrom_purgeIfAny h.processes (r.reading_le span processes)⟩
  | tick ms =>
    obtain rfl := Option.some.inj hstep
    exact ⟨henabled, h.workers.later (Nat.le_add_right _ ms),
      h.processes.later (Nat.le_add_right _ ms)⟩

theorem mem_fetchWorkerMetrics (s : MetricsStore T S) (reading : Uuid → ℕ) (utc : Uuid → Dt)
    (id : Uuid) (metrics : WorkerMetrics T) :
    (id, metrics) ∈ (s.fetchWorkerMetrics reading utc).1 ↔
      ∃ stored, s.workerMetrics.content.visible (reading id) id = some stored ∧
        metrics = { stored with lastUpdated := utc id } := by
  unfold MetricsStore.fetchWorkerMetrics
  rw [List.mem_map]
  constructor
  · rintro ⟨⟨id', stored⟩, hmem, heq⟩
    obtain ⟨rfl, rfl⟩ := Prod.mk.inj heq
    exact ⟨stored, (TimedMap.mem_iter ..).mp hmem, rfl⟩
  · rintro ⟨stored, hvisible, rfl⟩
    exact ⟨(id, stored), (TimedMap.mem_iter ..).mpr hvisible, rfl⟩

theorem Inv.refreshed {r : MetricsRun T S} (h : r.Inv) : r.Refreshed := by
  constructor
  · intro reading utc hreading id metrics
    rw [mem_fetchWorkerMetrics, h.workers _ (hreading id)]
  · intro reading hreading pid metrics
    exact (TimedMap.mem_iter ..).trans (by rw [h.processes _ (hreading pid)])

/-- Metrics that are stored over a visible entry with another deadline are fetched too long or
not long enough. -/
theorem exists_not_refreshed (r : MetricsRun T S) (a : MetricsAction T S)
    (h : ¬ r.Refreshes a) : ∃ t, r.step a = some t ∧ ¬ t.Refreshed := by
  cases a with
  | storeWorker metrics ttlMs =>
    obtain ⟨later, hlater, hne⟩ := TimedMap.exists_visible_ne h r.workers metrics
    refine ⟨_, rfl, fun hrefreshed => hne ?_⟩
    have hmem := hrefreshed.workers (fun _ => later) (fun _ => 0) (fun _ => hlater)
      metrics.workerId
    simp only [mem_fetchWorkerMetrics] at hmem
    rw [Bool.eq_iff_iff, Option.isSome_iff_exists, Option.isSome_iff_exists]
    constructor
    · rintro ⟨stored, hstored⟩
      obtain ⟨stored', hstored', -⟩ := (hmem _).mp ⟨stored, hstored, rfl⟩
      exact ⟨stored', hstored'⟩
    · rintro ⟨stored, hstored⟩
      obtain ⟨stored', hstored', -⟩ := (hmem _).mpr ⟨stored, hstored, rfl⟩
      exact ⟨stored', hstored'⟩
  | storeProcess metrics ttlMs =>
    obtain ⟨later, hlater, hne⟩ := TimedMap.exists_visible_ne h r.processes metrics
    refine ⟨_, rfl, fun hrefreshed => hne ?_⟩
    have hmem := hrefreshed.processes (fun _ => later) (fun _ => hlater) metrics.pid
    refine congrArg Option.isSome (Option.ext fun stored => ?_)
    exact (TimedMap.mem_iter ..).symm.trans (hmem stored)
  | _ => exact absurd trivial h

theorem Inv.fetchedAsStored_iff {r : MetricsRun T S} (h : r.Inv) (a : MetricsAction T S) :
    r.FetchedAsStored a ↔ r.Stamped a := by
  cases a with
  | fetchWorkers span delay utc =>
    have hlisted (id : Uuid) (metrics : WorkerMetrics T) :
        (id, metrics) ∈ (r.store.fetchWorkerMetrics (r.reading span delay) utc).1 ↔
          ∃ stored, r.workers.visible (r.reading span delay id) id = some stored ∧
            metrics = { stored with lastUpdated := utc id } :=
      h.refreshed.workers _ utc (r.le_reading span delay) id metrics
    have hsame (id : Uuid) := h.workers _ (r.le_reading span delay id) id
    constructor
    · intro hfetched id found hfound hlive
      have hvisible := (TimedMap.visible_content_eq_some_iff ..).mpr ⟨found, hfound, hlive, rfl⟩
      rw [hsame] at hvisible
      have hstored := (hfetched id _).mp ((hlisted id _).mpr ⟨_, hvisible, rfl⟩)
      rw [hvisible] at hstored
      exact congrArg WorkerMetrics.lastUpdated (Option.some.inj hstored)
    · intro hstamped id metrics
      have hstamp {stored : WorkerMetrics T}
          (hvisible : r.workers.visible (r.reading span delay id) id = some stored) :
          stored = { stored with lastUpdated := utc id } := by
        rw [← hsame, TimedMap.visible_content_eq_some_iff] at hvisible
        obtain ⟨found, hfound, hlive, rfl⟩ := hvisible
        rw [← hstamped id found hfound hlive]
      rw [hlisted]
      constructor
      · rintro ⟨stored, hvisible, rfl⟩
        rw [← hstamp hvisible]
        exact hvisible
      · exact fun hvisible => ⟨metrics, hvisible, hstamp hvisible⟩
  | fetchProcesses span delay =>
    exact iff_of_true (h.refreshed.processes _ (r.le_reading span delay)) trivial
  | _ => exact Iff.rfl

def start (now : ℕ) : MetricsRun T S := ⟨.new, now, .empty, .empty⟩

/-- In a run from an empty store, metrics live as long as those stored last, and are fetched as
they were stored, just if they are only stored when no other deadline is running and workers are
only fetched at the time of their stamps. -/
theorem metrics_refreshed_iff (now : ℕ) (actions : List (MetricsAction T S)) :
    Always step Refreshed (start now) actions ∧ Guarded step FetchedAsStored (start now) actions ↔
      Guarded step (fun r a => r.Refreshes a ∧ r.Stamped a) (start now) actions := by
  have hinv : (start now : MetricsRun T S).Inv :=
    ⟨⟨rfl, rfl⟩, ExpiringMap.SameFrom.refl _ _, ExpiringMap.SameFrom.refl _ _⟩
  rw [always_iff_guarded step_enabled step_inv (fun _ h => h.refreshed)
    (fun r a _ h => exists_not_refreshed r a h) hinv hinv.enabled]
  exact guarded_and_congr step_inv (fun _ a h => h.fetchedAsStored_iff a) hinv actions

/-- A worker stores its metrics at 0 and at 9, each time for 10 milliseconds. A fetch at 10
returns nothing; one at 9 returns them with the time of the fetch. -/
theorem metrics_lost_after_refresh :
    let metrics : WorkerMetrics Unit := ⟨1, 2, [], 5, 10⟩
    let s := ((MetricsStore.new : MetricsStore Unit Unit).storeWorkerMetrics metrics 10 0
      ).storeWorkerMetrics metrics 10 9
    (s.fetchWorkerMetrics (fun _ => 10) fun _ => 7).1 = [] ∧
      (s.fetchWorkerMetrics (fun _ => 9) fun _ => 7).1 = [(1, ⟨1, 2, [], 7, 10⟩)] ∧
      ¬ Always step Refreshed (start 0 : MetricsRun Unit Unit)
        [.storeWorker metrics 10, .tick 9, .storeWorker metrics 10] := by
  refine ⟨rfl, rfl, fun h => ?_⟩
  have hlast := h.of_run rfl
  have hlisted := (hlast.workers (fun _ => 10) (fun _ => 5) (fun _ => by decide) 1
    ⟨1, 2, [], 5, 10⟩).mpr ⟨⟨1, 2, [], 5, 10⟩, by decide, rfl⟩
  revert hlisted
  decide

end MetricsRun

end Kiomq
