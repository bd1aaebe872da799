import Kiomq.Foundations.Runs
import Kiomq.Queue.System
import Kiomq.Worker.FollowUp

/-!
# A job has one holder at a time

Every action of the system is a sequence of moves of the ledger of job ids: an id is
granted when its job is added or retried, spent when the job is finished or has missed
its deadline, and everything in between only moves its copy. So along every run an id
has at most one copy, and a record is never charged more attempts than it allows.
-/

namespace Kiomq

open Foundations

variable {D R P : Type}

/-! ### Promotions under way -/

namespace Collector

theorem count_pendingPromotions (c : Collector) (q : Uuid) (j : ℕ) :
    (c.pendingPromotions q).count j =
      ((c.delayedQueue.map Prod.snd).filterMap TimerType.promoted?).count j +
        ((c.channel q).filterMap TimerType.promoted?).count j := by
  rw [pendingPromotions, List.count_append]

theorem count_filterMap_append (l : List TimerType) (t : TimerType) (j : ℕ) :
    ((l ++ [t]).filterMap TimerType.promoted?).count j =
      (l.filterMap TimerType.promoted?).count j + if t.promoted? = some j then 1 else 0 := by
  rw [List.filterMap_append, List.count_append]
  congr 1
  cases ht : t.promoted? with
  | none => simp [ht]
  | some i => simp [ht, List.count_singleton]

theorem count_filterMap_eraseIdx {l : List TimerType} {i : ℕ} {t : TimerType}
    (h : l[i]? = some t) (j : ℕ) :
    ((l.eraseIdx i).filterMap TimerType.promoted?).count j +
        (if t.promoted? = some j then 1 else 0) =
      (l.filterMap TimerType.promoted?).count j := by
  obtain ⟨hi, rfl⟩ := List.getElem?_eq_some_iff.mp h
  have hperm := (List.getElem_cons_eraseIdx_perm hi).filterMap TimerType.promoted?
  rw [← hperm.count_eq]
  cases ht : (l[i]).promoted? with
  | none => simp [ht]
  | some k => simp [ht, List.count_cons]

theorem count_pendingPromotions_send_le (c : Collector) (q : Uuid) (timer : TimerType) (j : ℕ) :
    ((c.send q timer).pendingPromotions q).count j ≤
      (c.pendingPromotions q).count j + if timer.promoted? = some j then 1 else 0 := by
  by_cases hex : c.timerExists timer q = true
  · rw [send, if_pos hex]
    exact Nat.le_add_right _ _
  · have hch : (c.receive q timer).channel q = c.channel q := rfl
    rw [send, if_neg hex, count_pendingPromotions, count_pendingPromotions, hch]
    simp only [receive, List.map_append, List.map_cons, List.map_nil, count_filterMap_append]
    omega

theorem count_pendingPromotions_expire_le {c c' : Collector} {i : ℕ}
    (h : c.expire i = some c') (q : Uuid) (j : ℕ) :
    (c'.pendingPromotions q).count j ≤ (c.pendingPromotions q).count j := by
  obtain ⟨entry, hentry, hdq, hch⟩ := channel_expire h q
  have hget : (c.delayedQueue.map Prod.snd)[i]? = some entry.2 := by
    rw [List.getElem?_map, hentry]
    rfl
  have herase := count_filterMap_eraseIdx hget j
  have hle : ((c'.channel q).filterMap TimerType.promoted?).count j ≤
      ((c.channel q).filterMap TimerType.promoted?).count j +
        if entry.2.promoted? = some j then 1 else 0 := by
    rw [hch]
    cases c.globalTimers.get? entry.1 with
    | none => exact Nat.le_add_right _ _
    | some subscribers =>
      by_cases hd : q ∈ (targets subscribers entry.2).keys ∧ c.queues.containsKey q = true
      · simp only [if_pos hd]
        exact (count_filterMap_append _ _ j).le
      · simp only [if_neg hd]
        exact Nat.le_add_right _ _
  rw [count_pendingPromotions, count_pendingPromotions, hdq, ← List.eraseIdx_map]
  omega

theorem count_pendingPromotions_takeCommand {c : Collector} {q : Uuid} {i : ℕ} {t : TimerType}
    (h : (c.channel q)[i]? = some t) (j : ℕ) :
    ((c.takeCommand q i).pendingPromotions q).count j +
        (if t.promoted? = some j then 1 else 0) =
      (c.pendingPromotions q).count j := by
  have hch : (c.takeCommand q i).channel q = (c.channel q).eraseIdx i := by
    simp only [channel, takeCommand, OrderedMap.get?_modify, if_pos]
    cases c.queues.get? q <;> rfl
  have herase := count_filterMap_eraseIdx h j
  rw [count_pendingPromotions, count_pendingPromotions, hch]
  simp only [takeCommand]
  omega

end Collector

/-! ### The custody of the jobs of a system -/

namespace System

open InMemoryStore

/-- The places of the jobs. The ids in `transit` have been taken out of the delayed set
by a promotion that is still running. -/
def custody (w : System D R P) (transit : List ℕ) : Custody where
  shelved := w.queue.store.shelved
  active := w.queue.store.activeCount
  outside := fun i => (w.collector.pendingPromotions w.queue.id).count i + transit.count i
  tasks := fun i => (w.tasks.map Task.jobId).count i
  record := w.queue.store.recordView
  entry := fun i => (w.queue.jobsInProgress.get? i).map fun e => e.job.opts.attempts
  lastId := w.queue.store.idCounter

structure Inv (w : System D R P) (transit : List ℕ) : Prop where
  places : (w.custody transit).Inv
  unpaused : w.queue.isPaused = false

def Tracks (w : System D R P) (transit : List ℕ) (w' : System D R P) (transit' : List ℕ) : Prop :=
  Custody.Tracks (w.custody transit) (w'.custody transit') ∧ w'.queue.isPaused = false

theorem Tracks.inv {w w' : System D R P} {T T' : List ℕ} (h : Tracks w T w' T') : Inv w' T' :=
  ⟨h.1.1, h.2⟩

theorem Tracks.trans {w w' w'' : System D R P} {T T' T'' : List ℕ} (h : Tracks w T w' T')
    (h' : Inv w' T' → Tracks w' T' w'' T'') : Tracks w T w'' T'' :=
  ⟨h.1.trans fun _ => (h' h.inv).1, (h' h.inv).2⟩

theorem Inv.refl {w : System D R P} {T : List ℕ} (h : Inv w T) : Tracks w T w T :=
  ⟨h.places.refl, h.unpaused⟩

def setStore (w : System D R P) (s : InMemoryStore D R P) : System D R P :=
  { w with queue := { w.queue with store := s } }

theorem isPaused_setStore {w : System D R P} {s : InMemoryStore D R P}
    (hw : w.queue.isPaused = false)
    (hs : s.storedMetrics.isPaused = w.queue.store.storedMetrics.isPaused) :
    (w.setStore s).queue.isPaused = false := hs.trans hw

theorem custody_setStore_of_agree {w : System D R P} {s : InMemoryStore D R P}
    (h : Agree w.queue.store s) (T : List ℕ) : (w.setStore s).custody T = w.custody T := by
  simp only [custody, setStore, h.shelved, h.active, h.record, h.lastId]

theorem Inv.agree {w : System D R P} {s : InMemoryStore D R P} {T : List ℕ} (hw : Inv w T)
    (h : Agree w.queue.store s) : Tracks w T (w.setStore s) T := by
  refine ⟨?_, isPaused_setStore hw.unpaused h.cached⟩
  rw [custody_setStore_of_agree h]
  exact hw.places.refl

/-- A change that touches neither the active list nor the records, tasks and entries may
lose copies of ids. -/
theorem Inv.fewerCopies {w w' : System D R P} {T T' : List ℕ} (hw : Inv w T)
    (hcopies : ∀ i, (w'.custody T').total i ≤ (w.custody T).total i)
    (hactive : w'.queue.store.activeCount = w.queue.store.activeCount)
    (hrecord : w'.queue.store.recordView = w.queue.store.recordView)
    (htasks : w'.tasks = w.tasks) (hentries : w'.queue.jobsInProgress = w.queue.jobsInProgress)
    (hlast : w.queue.store.idCounter ≤ w'.queue.store.idCounter)
    (hcached : w'.queue.isPaused = w.queue.isPaused) : Tracks w T w' T' := by
  refine ⟨?_, hcached.trans hw.unpaused⟩
  apply hw.places.shrink hcopies
  · exact congrFun hactive
  · simp [custody, htasks]
  · exact fun i => Or.inl (congrFun hrecord i)
  · simp [custody, hentries]
  · exact hlast

theorem Inv.fewerEntries {w : System D R P} {T : List ℕ} (hw : Inv w T)
    {entries : OrderedMap ℕ (JobMeta D R P)}
    (hentries : ∀ i n, (entries.get? i).map (fun e => e.job.opts.attempts) = some n →
      (w.custody T).entry i = some n) :
    Tracks w T { w with queue := { w.queue with jobsInProgress := entries } } T := by
  refine ⟨?_, hw.unpaused⟩
  apply hw.places.shrink
  · exact fun i => le_rfl
  · exact fun i => rfl
  · exact fun i => le_rfl
  · exact fun i => Or.inl rfl
  · exact hentries
  · exact le_rfl

/-! ### Adding, pausing and timers -/

theorem addOne_tracks {w : System D R P} {T : List ℕ} (hw : Inv w T)
    (item : InMemoryStore.NewJob D) (queueOpts : QueueOpts) (isPaused : Bool) (clock : Clock) :
    Tracks w T (w.setStore (w.queue.store.addOne item queueOpts isPaused clock).2) T := by
  rcases w.queue.store.addOne_spec item queueOpts isPaused clock with
    ⟨e, counter, heq⟩ | ⟨job, t, heq, h⟩ <;> rw [heq]
  · exact hw.fewerCopies (fun i => le_rfl) rfl rfl rfl rfl (Nat.le_succ _) rfl
  · refine ⟨?_, isPaused_setStore hw.unpaused h.cached⟩
    apply hw.places.enlist (i := w.queue.store.idCounter + 1) (r := job.view)
    · exact Nat.lt_succ_self _
    · exact h.attempts
    · exact h.selfId
    · intro j
      have hj := h.shelved j
      have ha := congrFun h.active j
      simp only [Custody.total, custody, setStore]
      omega
    · exact fun j => congrFun h.active j
    · exact fun j => le_rfl
    · exact h.record
    · rfl
    · exact h.lastId.ge

theorem addBulk_tracks {w : System D R P} {T : List ℕ} (hw : Inv w T)
    (items : List (InMemoryStore.NewJob D)) (queueOpts : QueueOpts) (isPaused : Bool)
    (clock : Clock) :
    Tracks w T (w.setStore (w.queue.store.addBulk items queueOpts isPaused clock).2) T := by
  refine addBulk_keeps (motive := fun t => Tracks w T (w.setStore t) T) ?_ hw.refl
  intro item _ t ht
  exact ht.trans fun h => addOne_tracks h item queueOpts isPaused clock

theorem agree_pauseOrResume (q : Queue D R P) : Agree q.store q.pauseOrResume.store := by
  have hcached : Agree q.store q.getMetrics.2.store := ⟨rfl, rfl, rfl, rfl, rfl⟩
  have hmoved := q.getMetrics.2.store.agree_pause (!q.getMetrics.1.isPaused)
  exact (hcached.trans hmoved).trans (agree_publishEvent _ _)

theorem pauseOrResume_tracks {w : System D R P} {T : List ℕ} (hw : Inv w T) :
    Tracks w T { w with queue := w.queue.pauseOrResume } T := by
  obtain ⟨ht, hp⟩ := hw.agree (agree_pauseOrResume w.queue)
  exact ⟨ht, hp⟩

theorem total_collector_le {w : System D R P} {T T' : List ℕ} {c : Collector}
    (hle : ∀ j, (c.pendingPromotions w.queue.id).count j + T'.count j ≤
      (w.collector.pendingPromotions w.queue.id).count j + T.count j) (i : ℕ) :
    (custody { w with collector := c } T').total i ≤ (w.custody T).total i := by
  have hi := hle i
  simp only [Custody.total, custody]
  omega

theorem Inv.collector {w : System D R P} {T T' : List ℕ} {c : Collector} (hw : Inv w T)
    (hle : ∀ j, (c.pendingPromotions w.queue.id).count j + T'.count j ≤
      (w.collector.pendingPromotions w.queue.id).count j + T.count j) :
    Tracks w T { w with collector := c } T' :=
  hw.fewerCopies (total_collector_le hle) rfl rfl rfl rfl le_rfl rfl

theorem total_deliver_le {w : System D R P} {i jobId : ℕ} {q : Uuid}
    (h : (w.collector.channel w.queue.id)[i]? = some (.promotedDelayed jobId q)) (T : List ℕ)
    (j : ℕ) :
    (custody { w with
      queue := w.queue.processPromoted jobId
      collector := w.collector.takeCommand w.queue.id i } T).total j ≤ (w.custody T).total j := by
  have htake := Collector.count_pendingPromotions_takeCommand h j
  have hwait := w.queue.store.shelved_addItem_wait jobId j
  simp only [TimerType.promoted?, Option.some.injEq, eq_comm (a := jobId)] at htake
  simp only [Custody.total, custody, Queue.processPromoted, hwait]
  change w.queue.store.shelved j + _ + w.queue.store.activeCount j + _ ≤ _
  omega

theorem deliver_tracks {w : System D R P} {i jobId : ℕ} {q : Uuid} {T : List ℕ} (hw : Inv w T)
    (h : (w.collector.channel w.queue.id)[i]? = some (.promotedDelayed jobId q)) :
    Tracks w T { w with
      queue := w.queue.processPromoted jobId
      collector := w.collector.takeCommand w.queue.id i } T :=
  hw.fewerCopies (total_deliver_le h T) rfl rfl rfl rfl le_rfl rfl

/-! ### Fetching and dispatching -/

theorem total_ne_zero_of_activated {w : System D R P} {T : List ℕ} {id : ℕ}
    {t : InMemoryStore D R P} (h : Activated w.queue.store t id) :
    (w.custody T).total id ≠ 0 := by
  have := h.shelved id
  simp only [if_pos] at this
  simp only [Custody.total, custody]
  omega

theorem activeCount_of_activated {s t : InMemoryStore D R P} {id j : ℕ} (h : Activated s t id)
    (hj : j ≠ id) : t.activeCount j = s.activeCount j := by
  have ha := h.active j
  rw [if_neg hj] at ha
  exact ha

/-- The places after a fetch. Only the tasks and the entries in progress may be more than those of
the store. -/
theorem places_activated {w : System D R P} {T : List ℕ} {id : ℕ} {t : InMemoryStore D R P}
    (hw : Inv w T) (h : Activated w.queue.store t id) {K : Custody}
    (hshelved : K.shelved = t.shelved) (hactive : K.active = t.activeCount)
    (hout : K.outside = (w.custody T).outside)
    (htasks : ∀ j, K.tasks j ≤ (w.custody T).tasks j + if j = id then 1 else 0)
    (hrec : K.record = t.recordView)
    (hent : ∀ j n, K.entry j = some n → (w.custody T).entry j = some n ∨
      (j = id ∧ ∀ r, (w.custody T).record id = some r → n = r.attempts))
    (hid : K.lastId = t.idCounter) : Custody.Tracks (w.custody T) K := by
  apply hw.places.activate (i := id)
  · exact total_ne_zero_of_activated h
  · intro j
    have hs := h.shelved j
    have ha := h.active j
    simp only [Custody.total, hshelved, hactive, hout, custody]
    omega
  · intro j hj
    rw [hactive]
    exact activeCount_of_activated h hj
  · intro j
    have hle := hw.places.tasks_le j
    have ha := h.active j
    have ht := htasks j
    rw [hactive]
    simp only [custody] at hle ht
    omega
  · exact hrec.trans h.record
  · exact hent
  · exact hid.trans h.lastId

/-- A fetched job may be dispatched: its copy in the active list is not yet matched by
a task. -/
theorem activated_tracks {w : System D R P} {T : List ℕ} {id : ℕ} {t : InMemoryStore D R P}
    (hw : Inv w T) (h : Activated w.queue.store t id) : Tracks w T (w.setStore t) T := by
  refine ⟨?_, isPaused_setStore hw.unpaused h.cached⟩
  refine places_activated hw h rfl rfl rfl ?_ rfl ?_ rfl
  · intro j
    exact Nat.le_add_right _ _
  · exact fun j n hn => Or.inl hn

theorem dispatched_tracks {w : System D R P} {T : List ℕ} {id : ℕ} {t : InMemoryStore D R P}
    (hw : Inv w T) (h : Activated w.queue.store t id) {job : Job D R P}
    (hjob : t.getJob id = some job) (token : JobToken) (opts : WorkerOpts) :
    Tracks w T ((w.setStore t).dispatch job token opts) T := by
  have hview : t.recordView id = some job.view := by simp [recordView, hjob]
  have hinv := (activated_tracks hw h).inv
  have hid : job.id = some id := hinv.places.selfId id job.view hview
  have hproc := (t.agree_incr_metaKey 1 (some .processing)).trans (agree_publishEvent _
    { jobId := id, event := .processing, prev := some job.state, workerId := some token.worker })
  simp only [dispatch, hid]
  refine ⟨?_, isPaused_setStore hw.unpaused (hproc.cached.trans h.cached)⟩
  refine places_activated hw h rfl rfl rfl ?_ rfl ?_ rfl
  · intro j
    have hone : (List.map Task.jobId [(⟨job, token⟩ : Task D R P)]).count j =
        if j = id then 1 else 0 := by
      simp only [List.map_cons, List.map_nil, Task.jobId, hid, Option.getD_some, count_cons_ite,
        List.count_nil, Nat.zero_add]
    simp only [custody, setStore, List.map_append, List.count_append, hone]
    exact le_rfl
  · intro j n hn
    simp only [custody, setStore, Queue.updateProcessingCount, OrderedMap.get?_insert] at hn
    by_cases hj : j = id
    · subst hj
      right
      refine ⟨rfl, ?_⟩
      intro r hr
      obtain rfl : job.opts.attempts = n := by simpa using hn
      have hv := congrFun h.record j
      rw [hview, Function.update_self, show w.queue.store.recordView j = some r from hr] at hv
      exact congrArg RecordView.attempts (Option.some.inj hv)
    · rw [if_neg hj] at hn
      exact Or.inl hn

theorem poll_tracks {w : System D R P} {T : List ℕ} (hw : Inv w T) (token : JobToken)
    (opts : WorkerOpts) (clock : Clock) : Tracks w T (w.poll token opts clock) T := by
  unfold poll Queue.getNextJob
  simp only [Bool.false_eq_true, if_false]
  have hspec := Queue.moveToActive_spec hw.unpaused token opts clock
  cases hm : w.queue.moveToActive token opts clock with
  | mk res q =>
    rw [hm] at hspec
    rcases hspec with ⟨hq, hno⟩ | ⟨id, t, hq, hact, hjob⟩
    · obtain rfl : q = w.queue := hq
      cases res with
      | error e => exact hw.refl
      | ok r =>
        cases r with
        | processJob job => exact absurd rfl (hno job)
        | _ => exact hw.refl
    · obtain rfl : q = { w.queue with store := t } := hq
      cases res with
      | error e => exact activated_tracks hw hact
      | ok r =>
        cases r with
        | processJob job => exact dispatched_tracks hw hact (hjob job rfl) token opts
        | _ => exact activated_tracks hw hact

theorem storeHandle_tracks {w : System D R P} {T : List ℕ} (hw : Inv w T) (jobId handle : ℕ) :
    Tracks w T (w.storeHandle jobId handle) T := by
  refine hw.fewerEntries ?_
  intro i n hn
  rw [OrderedMap.get?_modify] at hn
  split_ifs at hn
  · rw [Option.map_map] at hn
    exact hn
  · exact hn

/-! ### Finishing a task -/

/-- A job without copies whose record allows another attempt may be put back; records
may be deleted. -/
theorem followed_tracks {w : System D R P} {T : List ℕ} {id made attempts : ℕ}
    {r : RecordView} {t : InMemoryStore D R P} (hw : Inv w T)
    (hrec : w.queue.store.recordView id = some r) (hmade : r.spent = made)
    (hatt : r.attempts = attempts) (hzero : (w.custody T).total id = 0)
    (h : Queue.Followed w.queue.store t id made attempts) : Tracks w T (w.setStore t) T := by
  rcases h with ⟨h, hlt⟩ | h
  · refine ⟨?_, isPaused_setStore hw.unpaused h.cached⟩
    apply hw.places.regrant hrec (by omega) hzero
    · intro j
      have hs := h.shelved j
      have ha := congrFun h.active j
      simp only [Custody.total, custody, setStore]
      omega
    · exact fun j => congrFun h.active j
    · exact fun j => le_rfl
    · exact h.record
    · rfl
    · exact h.lastId
  · refine ⟨?_, isPaused_setStore hw.unpaused h.cached⟩
    apply hw.places.shrink
    · intro j
      simp only [Custody.total, custody, setStore, h.shelved, h.active]
      exact le_rfl
    · exact fun j => congrFun h.active j
    · exact fun j => le_rfl
    · exact h.record
    · exact fun i n hn => hn
    · exact h.lastId.ge

theorem settle_tracks {w : System D R P} {T : List ℕ} {id : ℕ} {r : Job D R P} (hw : Inv w T)
    (hrec : w.queue.store.recordView id = some r.view) (hzero : (w.custody T).total id = 0)
    (workerId : Uuid) (state : JobState)
    (follow : Queue D R P → JobMeta D R P → KioResult Unit × Queue D R P)
    (hfollow : ∀ q entry, ∃ t, (follow q entry).2 = { q with store := t } ∧
      Queue.Followed q.store t id r.attemptsMade entry.job.opts.attempts) :
    Tracks w T { w with queue := (w.queue.settle id workerId state follow).2 } T := by
  cases hent : w.queue.jobsInProgress.get? id with
  | none =>
    simp only [Queue.settle, hent]
    exact hw.refl
  | some entry =>
    -- the entry is removed first, and then the decision is taken
    let w₁ : System D R P := { w with
      queue := { w.queue with jobsInProgress := w.queue.jobsInProgress.remove id } }
    have hbudget : entry.job.opts.attempts = r.opts.attempts :=
      hw.places.budget id entry.job.opts.attempts r.view (by simp [custody, hent]) hrec
    have hremove : Tracks w T w₁ T := by
      refine hw.fewerEntries ?_
      intro i n hn
      rw [OrderedMap.get?_remove] at hn
      split_ifs at hn
      · simp at hn
      · exact hn
    obtain ⟨t, ht, hfol⟩ := Queue.settle_spec hent workerId state hfollow
    rw [ht]
    refine hremove.trans fun hinv => ?_
    exact followed_tracks hinv hrec rfl hbudget.symm hzero hfol

theorem count_tasks_eraseIdx {tasks : List (Task D R P)} {i : ℕ} {task : Task D R P}
    (h : tasks[i]? = some task) (j : ℕ) :
    ((tasks.eraseIdx i).map Task.jobId).count j + (if j = task.jobId then 1 else 0) =
      (tasks.map Task.jobId).count j := by
  obtain ⟨hi, rfl⟩ := List.getElem?_eq_some_iff.mp h
  have hperm := (List.getElem_cons_eraseIdx_perm hi).map Task.jobId
  rw [← hperm.count_eq, List.map_cons, count_cons_ite]

theorem finished_tracks {w : System D R P} {T T' : List ℕ} {id : ℕ} {r r' : Job D R P}
    {t : InMemoryStore D R P} {tasks : List (Task D R P)} (hw : Inv w T)
    (hr : w.queue.store.getJob id = some r) (h : Finished w.queue.store t id r r')
    (hheld : (w.custody T).total id ≠ 0)
    (hzero : (custody { w.setStore t with tasks } T').total id = 0)
    (htransit : ∀ j, T'.count j ≤ T.count j)
    (htasks : ∀ j, (tasks.map Task.jobId).count j ≤ t.activeCount j) :
    Tracks w T { w.setStore t with tasks } T' := by
  have hview : w.queue.store.recordView id = some r.view := by simp [recordView, hr]
  refine ⟨?_, isPaused_setStore hw.unpaused h.cached⟩
  apply hw.places.spend hview hheld hzero
  · intro j hj
    have hs := h.shelved j
    have ha := h.active_other j hj
    have ht := htransit j
    simp only [Custody.total, custody, setStore]
    omega
  · exact h.active_other
  · exact htasks
  · exact h.record
  · exact h.spent
  · simp only [Job.view, h.opts]
  · exact h.selfId
  · rfl
  · exact h.lastId

theorem active_of_task {w : System D R P} {T : List ℕ} {i : ℕ} {task : Task D R P} (hw : Inv w T)
    (hi : w.tasks[i]? = some task) : w.queue.store.activeCount task.jobId ≠ 0 := by
  have htask := hw.places.tasks_le task.jobId
  have herase := count_tasks_eraseIdx hi task.jobId
  rw [if_pos rfl] at herase
  simp only [custody] at htask
  omega

theorem state_of_task {w : System D R P} {T : List ℕ} {i : ℕ} {task : Task D R P}
    {r : Job D R P} (hw : Inv w T) (hi : w.tasks[i]? = some task)
    (hr : w.queue.store.getJob task.jobId = some r) : r.state = .active := by
  have hworking := hw.places.working task.jobId r.view (active_of_task hw hi)
    (by simp [custody, recordView, hr])
  simpa [Job.view] using hworking

theorem finishTask_tracks {w : System D R P} {T : List ℕ} {i : ℕ} {task : Task D R P}
    {r r' : Job D R P} {t : InMemoryStore D R P} (hw : Inv w T) (hi : w.tasks[i]? = some task)
    (hr : w.queue.store.getJob task.jobId = some r)
    (h : Finished w.queue.store t task.jobId r r') (workerId : Uuid) (state : JobState)
    {follow : Queue D R P → JobMeta D R P → KioResult Unit × Queue D R P}
    (hfollow : ∀ q entry, ∃ t, (follow q entry).2 = { q with store := t } ∧
      Queue.Followed q.store t task.jobId r'.attemptsMade entry.job.opts.attempts) :
    Tracks w T { w with
      queue := (Queue.settle { w.queue with store := t } task.jobId workerId state follow).2
      tasks := w.tasks.eraseIdx i } T := by
  have hone := hw.places.total_le_one task.jobId
  have htask := hw.places.tasks_le task.jobId
  have herase := count_tasks_eraseIdx hi task.jobId
  rw [if_pos rfl] at herase
  have hactive := active_of_task hw hi
  have hstate := state_of_task hw hi hr
  have hgone := h.active_zero hstate
  have hshelf := h.shelved task.jobId
  simp only [Custody.total, custody] at hone htask
  have hzero : (custody { w.setStore t with tasks := w.tasks.eraseIdx i } T).total task.jobId =
      0 := by
    simp only [Custody.total, custody, setStore]
    omega
  have hfin : Tracks w T { w.setStore t with tasks := w.tasks.eraseIdx i } T := by
    refine finished_tracks hw hr h ?_ hzero (fun j => le_rfl) ?_
    · simp only [Custody.total, custody]
      omega
    · intro j
      by_cases hj : j = task.jobId
      · subst hj
        omega
      · have hle := hw.places.tasks_le j
        have hej := count_tasks_eraseIdx hi j
        rw [if_neg hj] at hej
        rw [h.active_other j hj]
        simp only [custody] at hle
        omega
  refine hfin.trans fun hinv => ?_
  have hrec : t.recordView task.jobId = some r'.view := by rw [h.record, Function.update_self]
  exact settle_tracks hinv hrec hzero workerId state follow hfollow

theorem finish_tracks {w : System D R P} {T : List ℕ} {i : ℕ} {task : Task D R P} (hw : Inv w T)
    (hi : w.tasks[i]? = some task) (returned : Except CaughtError R) (clock : Clock) :
    Tracks w T { w with
      queue := (w.queue.processJob task.job task.token task.token.worker returned clock).2
      tasks := w.tasks.eraseIdx i } T := by
  have hdrop : Tracks w T { w with tasks := w.tasks.eraseIdx i } T := by
    refine ⟨?_, hw.unpaused⟩
    apply hw.places.shrink
    · exact fun i => le_rfl
    · exact fun i => rfl
    · intro j
      have := count_tasks_eraseIdx hi j
      simp only [custody]
      omega
    · exact fun i => Or.inl rfl
    · exact fun i n h => h
    · exact le_rfl
  rw [Queue.processJob_eq]
  cases hm : task.job.getMetrics with
  | error e =>
    rw [Queue.moveFinished_error hm]
    exact hdrop
  | ok metrics =>
    cases hr : w.queue.store.getJob task.jobId with
    | none =>
      rw [Queue.moveFinished_missing hw.unpaused hm hr]
      exact hdrop
    | some r =>
      obtain ⟨t, r', heq, hfin⟩ := Queue.moveFinished_spec hw.unpaused hm hr task.token returned
        clock
      rw [heq]
      apply finishTask_tracks hw hi hr hfin
      intro q entry
      exact (q.followUp_followStep task.jobId _ r' entry clock).spec

/-! ### Promotion -/

theorem count_sendPromotions_le (q : Uuid) (c : Collector) (due T : List ℕ) (j : ℕ) :
    ((Queue.sendPromotions q c due).pendingPromotions q).count j + T.count j ≤
      (c.pendingPromotions q).count j + (due ++ T).count j := by
  induction due generalizing c with
  | nil => exact le_rfl
  | cons id due ih =>
    have hsend := c.count_pendingPromotions_send_le q (.promotedDelayed id q) j
    have hrest := ih (c.send q (.promotedDelayed id q))
    simp only [TimerType.promoted?, Option.some.injEq, eq_comm (a := id)] at hsend
    rw [List.cons_append, count_cons_ite]
    simp only [Queue.sendPromotions, List.foldl_cons] at hrest ⊢
    omega

theorem sendPromotions_tracks {w : System D R P} {due T : List ℕ} (hw : Inv w (due ++ T)) :
    Tracks w (due ++ T)
      { w with collector := Queue.sendPromotions w.queue.id w.collector due } T :=
  hw.collector (count_sendPromotions_le w.queue.id w.collector due T)

theorem failMissed_tracks {w : System D R P} {id : ℕ} {T : List ℕ} (hw : Inv w (id :: T))
    (dateTime : Dt) (clock : Clock) :
    Tracks w (id :: T) { w with queue := w.queue.failMissed dateTime clock id } T := by
  have htoken := hw.agree (w.queue.store.agree_getToken id clock.instant)
  refine htoken.trans fun hinv => ?_
  generalize hw₁ : w.setStore (w.queue.store.getToken id clock.instant).2 = w₁ at hinv
  have hq : w.queue.failMissed dateTime clock id =
      (w₁.queue.moveJobToFinishedOrFailed id dateTime.timestampMicros
        ((w.queue.store.getToken id clock.instant).1.getD ⟨0, 0, 0⟩) .failed
        (.failed ⟨(w.queue.store.getCounter (.job id) (some .attemptsMade)).getD 0,
          Queue.missedDelayDeadline⟩) none clock).2 := by
    rw [← hw₁]
    rfl
  have hsys : ∀ q, ({ w with queue := q } : System D R P) = { w₁ with queue := q } := by
    intro q
    rw [← hw₁]
    rfl
  rw [hsys, hq]
  cases hr : w₁.queue.store.getJob id with
  | none =>
    rw [Queue.moveJobToFinishedOrFailed_missing hinv.unpaused hr]
    apply hinv.collector
    intro j
    rw [count_cons_ite]
    omega
  | some r =>
    obtain ⟨t, r', heq, hfin⟩ := Queue.moveJobToFinishedOrFailed_spec hinv.unpaused hr
      dateTime.timestampMicros ((w.queue.store.getToken id clock.instant).1.getD ⟨0, 0, 0⟩)
      (Or.inl rfl : JobState.failed = .failed ∨ _)
      (.failed ⟨(w.queue.store.getCounter (.job id) (some .attemptsMade)).getD 0,
        Queue.missedDelayDeadline⟩) none clock
    rw [heq]
    have hone := hinv.places.total_le_one id
    have hshelf := hfin.shelved id
    have hact := hfin.active_self
    have hcons := count_cons_ite id id T
    rw [if_pos rfl] at hcons
    simp only [Custody.total, custody] at hone
    refine finished_tracks hinv hr hfin ?_ ?_ ?_ ?_
    · simp only [Custody.total, custody]
      omega
    · simp only [Custody.total, custody, setStore]
      omega
    · intro j
      rw [count_cons_ite]
      omega
    · intro j
      have hle := hinv.places.tasks_le j
      simp only [custody] at hle
      by_cases hj : j = id
      · subst hj
        omega
      · rw [hfin.active_other j hj]
        exact hle

theorem failAllMissed_tracks {w : System D R P} {missed : List ℕ} (hw : Inv w missed)
    (dateTime : Dt) (clock : Clock) :
    Tracks w missed
      { w with
        queue := missed.foldl (fun q jobId => q.failMissed dateTime clock jobId) w.queue } [] := by
  induction missed generalizing w with
  | nil => exact hw.refl
  | cons id missed ih =>
    exact (failMissed_tracks hw dateTime clock).trans fun hinv => ih hinv

theorem total_getDelayedAt_le (w : System D R P) (start stop : ℤ) (j : ℕ) :
    (custody (w.setStore (w.queue.store.getDelayedAt start stop).2)
      ((w.queue.store.getDelayedAt start stop).1.1 ++
        (w.queue.store.getDelayedAt start stop).1.2)).total j ≤ (w.custody []).total j := by
  have hsplit := w.queue.store.shelved_getDelayedAt start stop j
  simp only [Custody.total, custody, setStore, List.count_append, List.count_nil]
  change _ + w.queue.store.activeCount j + _ ≤ _
  omega

theorem getDelayedAt_tracks {w : System D R P} (hw : Inv w []) (start stop : ℤ) :
    Tracks w [] (w.setStore (w.queue.store.getDelayedAt start stop).2)
      ((w.queue.store.getDelayedAt start stop).1.1 ++
        (w.queue.store.getDelayedAt start stop).1.2) :=
  hw.fewerCopies (w.total_getDelayedAt_le start stop) rfl rfl rfl rfl le_rfl rfl

theorem promote_tracks {w : System D R P} (hw : Inv w []) (dateTime : Dt) (intervalMs : ℤ)
    (clock : Clock) : Tracks w [] (w.promote dateTime intervalMs clock) [] := by
  unfold promote Queue.promoteJobs
  by_cases hd : (!w.queue.currentMetrics.hasDelayed) = true
  · simp only [if_pos hd]
    exact hw.refl
  · simp only [if_neg hd]
    cases hadd : dateTime.addMillis intervalMs with
    | error e => exact hw.refl
    | ok until_ =>
      have htake := getDelayedAt_tracks hw dateTime.timestampMillis until_.timestampMillis
      refine htake.trans fun hinv => ?_
      refine (sendPromotions_tracks hinv).trans fun hinv' => ?_
      exact failAllMissed_tracks hinv' dateTime clock

/-! ### Runs -/

theorem registerTimer_spec {w w' : System D R P} {timer : TimerType}
    (h : w.step (.registerTimer timer : Action D R) = some w') :
    ∃ c, w' = { w with collector := c } ∧
      ∀ (T : List ℕ) j, (c.pendingPromotions w.queue.id).count j + T.count j ≤
        (w.collector.pendingPromotions w.queue.id).count j + T.count j := by
  simp only [step] at h
  cases ht : timer.promoted? with
  | some i => simp [ht] at h
  | none =>
    simp only [ht, Option.some.injEq] at h
    refine ⟨w.collector.send w.queue.id timer, h.symm, fun T j => ?_⟩
    have hle := w.collector.count_pendingPromotions_send_le w.queue.id timer j
    simp only [ht, reduceCtorEq, if_false] at hle
    omega

theorem expire_spec {w w' : System D R P} {i : ℕ}
    (h : w.step (.expire i : Action D R) = some w') :
    ∃ c, w' = { w with collector := c } ∧
      ∀ (T : List ℕ) j, (c.pendingPromotions w.queue.id).count j + T.count j ≤
        (w.collector.pendingPromotions w.queue.id).count j + T.count j := by
  obtain ⟨c, hc, rfl⟩ := Option.map_eq_some_iff.mp h
  refine ⟨c, rfl, fun T j => ?_⟩
  have hle := Collector.count_pendingPromotions_expire_le hc w.queue.id j
  omega

theorem deliver_spec {w w' : System D R P} {i : ℕ}
    (h : w.step (.deliver i : Action D R) = some w') :
    ∃ jobId q, (w.collector.channel w.queue.id)[i]? = some (.promotedDelayed jobId q) ∧
      w' = { w with
        queue := w.queue.processPromoted jobId
        collector := w.collector.takeCommand w.queue.id i } := by
  simp only [step] at h
  cases hi : (w.collector.channel w.queue.id)[i]? with
  | none => simp [hi] at h
  | some timer =>
    cases timer with
    | promotedDelayed jobId q =>
      simp only [hi, Option.some.injEq] at h
      exact ⟨jobId, q, rfl, h.symm⟩
    | _ => simp [hi] at h

/-- Every action keeps the invariant and moves the ledger. -/
theorem step_tracks {w w' : System D R P} {a : Action D R} (hw : Inv w [])
    (h : w.step a = some w') : Tracks w [] w' [] := by
  cases a with
  | addBulk items clock =>
    obtain rfl := Option.some.inj h
    exact addBulk_tracks hw items w.queue.opts w.queue.isPaused clock
  | pauseOrResume =>
    obtain rfl := Option.some.inj h
    exact pauseOrResume_tracks hw
  | getMetrics =>
    obtain rfl := Option.some.inj h
    exact hw.agree (s := w.queue.getMetrics.2.store) ⟨rfl, rfl, rfl, rfl, rfl⟩
  | poll token opts clock =>
    obtain rfl := Option.some.inj h
    exact poll_tracks hw token opts clock
  | storeHandle jobId handle =>
    obtain rfl := Option.some.inj h
    exact storeHandle_tracks hw jobId handle
  | finish i returned clock =>
    obtain ⟨task, hi, rfl⟩ := Option.map_eq_some_iff.mp h
    exact finish_tracks hw hi returned clock
  | registerTimer timer =>
    obtain ⟨c, rfl, hle⟩ := registerTimer_spec h
    exact hw.collector (hle [])
  | promote dateTime intervalMs clock =>
    obtain rfl := Option.some.inj h
    exact promote_tracks hw dateTime intervalMs clock
  | expire i =>
    obtain ⟨c, rfl, hle⟩ := expire_spec h
    exact hw.collector (hle [])
  | deliver i =>
    obtain ⟨jobId, q, hi, rfl⟩ := deliver_spec h
    exact deliver_tracks hw hi

theorem total_init (keyPrefix : Option String) (name : String) (opts : Option QueueOpts)
    (id : Uuid) (backoff : BackOff) (i : ℕ) :
    (custody (init keyPrefix name opts id backoff : System D R P) []).total i = 0 := by
  have hpending : (Collector.new.registerQueue id).pendingPromotions id = [] := by
    simp [Collector.pendingPromotions, Collector.channel, Collector.registerQueue, Collector.new,
      OrderedMap.containsKey, OrderedMap.get?_insert]
  have hout : ((Collector.new.registerQueue id).pendingPromotions id).count i = 0 := by
    rw [hpending, List.count_nil]
  simp only [Custody.total, custody]
  change 0 + 0 + (((Collector.new.registerQueue id).pendingPromotions id).count i + 0) = 0
  omega

theorem init_inv (keyPrefix : Option String) (name : String) (opts : Option QueueOpts) (id : Uuid)
    (backoff : BackOff) : Inv (init keyPrefix name opts id backoff : System D R P) [] := by
  have htotal := total_init (D := D) (R := R) (P := P) keyPrefix name opts id backoff
  have hrec : ∀ i, (custody (init keyPrefix name opts id backoff : System D R P) []).record i =
      none := fun i => rfl
  refine ⟨⟨?_, ?_, ?_, ?_, ?_, ?_⟩, rfl⟩
  · intro i
    refine ⟨by simp [Custody.ledger, htotal i], ?_⟩
    intro a ha
    simp [Custody.ledger, hrec] at ha
  · exact fun i _ => ⟨htotal i, hrec i, rfl⟩
  · intro i r _ hr
    simp [hrec] at hr
  · exact fun i => le_rfl
  · intro i n r _ hr
    simp [hrec] at hr
  · intro i r hr
    simp [hrec] at hr

/-- Along every run the ledger of job ids makes ledger moves only. -/
theorem run_moves {w w' : System D R P} {as : List (Action D R)} (hw : Inv w [])
    (h : run step w as = some w') :
    Ledger.Moves (w.custody []).ledger (w'.custody []).ledger := by
  have hinv : ∀ (s : System D R P) a t,
      Inv s [] ∧ Ledger.Moves (w.custody []).ledger (s.custody []).ledger → step s a = some t →
      Inv t [] ∧ Ledger.Moves (w.custody []).ledger (t.custody []).ledger := by
    intro s a t hs hstep
    have htracks := step_tracks hs.1 hstep
    exact ⟨htracks.inv, hs.2.trans htracks.1.2⟩
  exact (run_invariant_all hinv ⟨hw, .refl⟩ h).2

/-- The copies of an id across the wait, paused, prioritized, delayed and active
collections and the promotions under way. -/
def holders (w : System D R P) (id : ℕ) : ℕ :=
  w.queue.store.waiting.values.count id + w.queue.store.paused.values.count id +
    w.queue.store.prioritized.values.count id + w.queue.store.delayed.values.count id +
    w.queue.store.active.values.count id +
    (w.collector.pendingPromotions w.queue.id).count id

/-- In every state that a queue opened on a fresh store reaches, an id has at most one
holder and no record exceeds its attempts. -/
theorem single_holder_and_bounded_attempts (keyPrefix : Option String) (name : String)
    (opts : Option QueueOpts) (id : Uuid) (backoff : BackOff) (as : List (Action D R)) :
    Always step (fun w : System D R P =>
      (∀ jobId, w.holders jobId ≤ 1) ∧
        ∀ jobId job, w.queue.store.getJob jobId = some job →
          job.attemptsMade ≤ max 1 job.opts.attempts)
      (init keyPrefix name opts id backoff) as := by
  have hstep : ∀ (s : System D R P) a t, Inv s [] → step s a = some t → Inv t [] :=
    fun s a t hs h => (step_tracks hs h).inv
  refine always_of_invariant_all hstep ?_ (init_inv keyPrefix name opts id backoff) as
  intro w hw
  constructor
  · intro jobId
    exact hw.places.total_le_one jobId
  · intro jobId job hjob
    have hle := hw.places.spent_le (i := jobId) (r := job.view)
      (by simp [custody, recordView, hjob])
    simp only [Job.view] at hle
    omega

end System

end Kiomq
