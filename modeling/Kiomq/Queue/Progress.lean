import Kiomq.Foundations.Potential
import Kiomq.Queue.PauseSafety
import Kiomq.Queue.Placement
import Kiomq.Queue.SingleHolder

/-!
# How often a job is fetched, and when a queue is drained

A poll takes an id from the wait list or from the prioritized set. Each id is owed a number of
fetches: those that the attempts of its record leave, without the ones under way, or the copies
that are left of it if there is no record. A poll takes one from what the id is owed, and no
action adds to it: a job is put back only when its attempt has been charged. So a stored job is
fetched at most as often as its attempts allow, in every order of all actions, and polls drain
a queue to which no jobs are added.
-/

namespace Kiomq

open Foundations

variable {D R P : Type}

/-! ### What an id is owed -/

namespace Custody

variable {K K' K'' : Custody}

def owed (K : Custody) (i : ℕ) : ℕ :=
  (K.record i).elim (K.shelved i + K.outside i) fun r => max 1 r.attempts - r.spent - K.active i

/-- No id is owed more, and no id has been given out. -/
structure Pays (K K' : Custody) : Prop where
  owed : ∀ i, K'.owed i ≤ K.owed i
  lastId : K'.lastId = K.lastId

theorem Pays.refl (K : Custody) : Pays K K := ⟨fun _ => le_rfl, rfl⟩

theorem Pays.trans (h : Pays K K') (h' : Pays K' K'') : Pays K K'' :=
  ⟨fun i => (h'.owed i).trans (h.owed i), h'.lastId.trans h.lastId⟩

theorem Inv.owed_shrink (h : Inv K) {i : ℕ} (htot : K'.total i ≤ K.total i)
    (hact : K'.active i = K.active i)
    (hrec : K'.record i = K.record i ∨ K'.record i = none) : K'.owed i ≤ K.owed i := by
  unfold total at htot
  cases hr : K.record i with
  | none =>
    have hr' : K'.record i = none := by
      rcases hrec with heq | heq
      · exact heq.trans hr
      · exact heq
    simp only [owed, hr, hr', Option.elim_none]
    omega
  | some r =>
    have hle := h.spent_le hr
    unfold total at hle
    rcases hrec with heq | heq
    · simp only [owed, hr, heq, hact, Option.elim_some]
      exact le_rfl
    · simp only [owed, hr, heq, Option.elim_none, Option.elim_some]
      omega

theorem Inv.owed_activate (h : Inv K) {i : ℕ} (hshelf : K'.shelved i + 1 = K.shelved i)
    (hact : K'.active i = K.active i + 1) (hout : K'.outside i = K.outside i)
    (hrec : K'.record i = (K.record i).map fun r => { r with working := true }) :
    K'.owed i + 1 ≤ K.owed i := by
  cases hr : K.record i with
  | none =>
    simp only [owed, hr, hrec, Option.map_none, Option.elim_none]
    omega
  | some r =>
    have hle := h.spent_le hr
    unfold total at hle
    simp only [owed, hr, hrec, Option.map_some, Option.elim_some]
    omega

theorem Inv.owed_spend (h : Inv K) {i : ℕ} {r r' : RecordView} (hr : K.record i = some r)
    (hr' : K'.record i = some r') (hspent : r'.spent = r.spent + 1)
    (hatt : r'.attempts = r.attempts) : K'.owed i ≤ K.owed i := by
  have hone := h.total_le_one i
  unfold total at hone
  simp only [owed, hr, hr', hspent, hatt, Option.elim_some]
  omega

theorem owed_congr {i : ℕ} (hshelf : K'.shelved i = K.shelved i)
    (hact : K'.active i = K.active i) (hout : K'.outside i = K.outside i)
    (hrec : K'.record i = K.record i) : K'.owed i = K.owed i := by
  simp only [owed, hshelf, hact, hout, hrec]

theorem Inv.owed_of_lastId_lt (h : Inv K) {i : ℕ} (hi : K.lastId < i) : K.owed i = 0 := by
  obtain ⟨htot, hrec, -⟩ := h.fresh i hi
  unfold total at htot
  simp only [owed, hrec, Option.elim_none]
  omega

end Custody

namespace InMemoryStore

/-- The id that a fetch takes: the last one of the wait list, or the one with the least score. -/
def nextId (s : InMemoryStore D R P) : Option ℕ :=
  s.waiting.values.getLast?.or (s.prioritized.front?.map Prod.snd)

theorem nextId_eq_none_iff (s : InMemoryStore D R P) : s.nextId = none ↔ s.Drained := by
  simp [nextId, Drained, OrderedMap.front?]

theorem popBackPushFront_fst (s : InMemoryStore D R P) :
    (s.popBackPushFront .wait .active).1 = s.waiting.values.getLast? := by
  rw [← ConcurrentDeque.popBack_fst, popBackPushFront]
  cases s.waiting.popBack with
  | mk found waiting => cases found <;> rfl

end InMemoryStore

namespace Queue

open InMemoryStore

theorem moveToActive_nextId {q : Queue D R P} (hpause : q.isPaused = false) (token : JobToken)
    (opts : WorkerOpts) (clock : Clock) :
    (q.store.nextId = none ∧ (q.moveToActive token opts clock).2 = q ∧
        ∀ job, (q.moveToActive token opts clock).1 ≠ .ok (.processJob job)) ∨
      ∃ id t, q.store.nextId = some id ∧
        (q.moveToActive token opts clock).2 = { q with store := t } ∧
          Activated q.store t id ∧
        ∀ job, (q.moveToActive token opts clock).1 = .ok (.processJob job) →
          t.getJob id = some job := by
  have hfst := q.store.popBackPushFront_fst
  unfold moveToActive nextId
  cases hp : q.store.popBackPushFront .wait .active with
  | mk found s =>
    rw [hp] at hfst
    rw [← hfst]
    cases found with
    | some id =>
      obtain ⟨t, ht⟩ := prepareJob_popped hpause (popBackPushFront_some hp) token opts clock
      exact Or.inr ⟨id, t, rfl, ht⟩
    | none =>
      obtain rfl := popBackPushFront_none hp
      cases hm : q.moveJobFromPriortyToActive with
      | mk found q' =>
        cases found with
        | none =>
          obtain rfl := moveJobFromPriortyToActive_none hm
          refine Or.inl ⟨?_, by simp [hm], by simp [hm]⟩
          cases hf : q'.store.prioritized.front? with
          | none => rfl
          | some e => simp [moveJobFromPriortyToActive, popSet, popScored, hf] at hm
        | some id =>
          have hnext : q.store.prioritized.front?.map Prod.snd = some id := by
            cases hf : q.store.prioritized.front? with
            | none => simp [moveJobFromPriortyToActive, popSet, popScored, hf] at hm
            | some e =>
              simp only [moveJobFromPriortyToActive, popSet, popScored, if_true, hf,
                Prod.mk.injEq] at hm
              exact hm.1
          obtain ⟨s, rfl, hpopped⟩ := moveJobFromPriortyToActive_some hm
          obtain ⟨t, ht⟩ := prepareJob_popped hpause hpopped token opts clock
          simp only [hm, hnext]
          exact Or.inr ⟨id, t, rfl, ht⟩

end Queue

/-! ### The actions -/

namespace System

open InMemoryStore Custody

def owed (w : System D R P) (id : ℕ) : ℕ := (w.custody []).owed id

def fetched (w : System D R P) : Action D R → Option ℕ
  | .poll _ _ _ => w.queue.store.nextId
  | _ => none

variable {w w' : System D R P} {T T' : List ℕ}

theorem pays_agree {s : InMemoryStore D R P} (h : Agree w.queue.store s) :
    Pays (w.custody T) ((w.setStore s).custody T) := by
  rw [custody_setStore_of_agree h]
  exact Pays.refl _

theorem pays_fewerCopies (hw : Inv w T)
    (hcopies : ∀ i, (w'.custody T').total i ≤ (w.custody T).total i)
    (hactive : w'.queue.store.activeCount = w.queue.store.activeCount)
    (hrecord : w'.queue.store.recordView = w.queue.store.recordView)
    (hlast : w'.queue.store.idCounter = w.queue.store.idCounter) :
    Pays (w.custody T) (w'.custody T') :=
  ⟨fun i => hw.places.owed_shrink (hcopies i) (congrFun hactive i) (Or.inl (congrFun hrecord i)),
    hlast⟩

theorem pays_collector (hw : Inv w T) {c : Collector}
    (hle : ∀ j, (c.pendingPromotions w.queue.id).count j + T'.count j ≤
      (w.collector.pendingPromotions w.queue.id).count j + T.count j) :
    Pays (w.custody T) (custody { w with collector := c } T') :=
  pays_fewerCopies hw (total_collector_le hle) rfl rfl rfl

theorem owed_activated (hw : Inv w T) {id : ℕ} {t : InMemoryStore D R P}
    (h : Activated w.queue.store t id) {K : Custody} (hshelved : K.shelved = t.shelved)
    (hactive : K.active = t.activeCount) (hout : K.outside = (w.custody T).outside)
    (hrec : K.record = t.recordView) (i : ℕ) :
    K.owed i + (if some id = some i then 1 else 0) ≤ (w.custody T).owed i := by
  have hs := h.shelved i
  have ha := h.active i
  have hr := congrFun h.record i
  by_cases hi : i = id
  · subst hi
    rw [if_pos rfl] at hs ha ⊢
    rw [Function.update_self] at hr
    exact hw.places.owed_activate ((congrFun hshelved i).symm ▸ hs) ((congrFun hactive i).trans ha)
      (congrFun hout i) ((congrFun hrec i).trans hr)
  · rw [if_neg hi] at hs ha
    rw [Function.update_of_ne hi] at hr
    rw [if_neg (by simpa using Ne.symm hi), Nat.add_zero]
    exact (owed_congr ((congrFun hshelved i).trans hs) ((congrFun hactive i).trans ha)
      (congrFun hout i) ((congrFun hrec i).trans hr)).le

theorem poll_pays (hw : Inv w []) (token : JobToken) (opts : WorkerOpts) (clock : Clock) :
    (∀ i, (w.poll token opts clock).owed i + (if w.queue.store.nextId = some i then 1 else 0) ≤
        w.owed i) ∧
      (w.poll token opts clock).queue.store.idCounter = w.queue.store.idCounter := by
  unfold poll Queue.getNextJob
  simp only [Bool.false_eq_true, if_false]
  have hspec := Queue.moveToActive_nextId hw.unpaused token opts clock
  cases hm : w.queue.moveToActive token opts clock with
  | mk res q =>
    rw [hm] at hspec
    rcases hspec with ⟨hnext, hq, hno⟩ | ⟨id, t, hnext, hq, hact, hjob⟩
    · obtain rfl : q = w.queue := hq
      rw [hnext]
      cases res with
      | error e => exact ⟨fun i => le_rfl, rfl⟩
      | ok r =>
        cases r with
        | processJob job => exact absurd rfl (hno job)
        | _ => exact ⟨fun i => le_rfl, rfl⟩
    · obtain rfl : q = { w.queue with store := t } := hq
      rw [hnext]
      cases res with
      | error e => exact ⟨owed_activated hw hact rfl rfl rfl rfl, hact.lastId⟩
      | ok r =>
        cases r with
        | processJob job =>
          have hview : t.recordView id = some job.view := by
            simp [recordView, hjob job rfl]
          have hid : job.id = some id :=
            (activated_tracks hw hact).inv.places.selfId id job.view hview
          simp only [dispatch, hid]
          exact ⟨owed_activated hw hact rfl rfl rfl rfl, hact.lastId⟩
        | _ => exact ⟨owed_activated hw hact rfl rfl rfl rfl, hact.lastId⟩

theorem owed_finished (hw : Inv w T) {id : ℕ} {r r' : Job D R P} {t : InMemoryStore D R P}
    (hr : w.queue.store.getJob id = some r) (h : Finished w.queue.store t id r r') {K : Custody}
    (hshelved : ∀ j, j ≠ id → K.shelved j ≤ t.shelved j)
    (hactive : ∀ j, K.active j = t.activeCount j)
    (hout : ∀ j, K.outside j ≤ (w.custody T).outside j)
    (hrec : ∀ j, K.record j = t.recordView j ∨ K.record j = none)
    (hself : K.record id = none → K.shelved id ≤ t.shelved id) (i : ℕ) :
    K.owed i ≤ (w.custody T).owed i := by
  have hview : (w.custody T).record id = some r.view := by simp [custody, recordView, hr]
  have ht := congrFun h.record i
  have hs := h.shelved i
  by_cases hi : i = id
  · subst hi
    rw [Function.update_self] at ht
    rcases hrec i with hsame | hnone
    · exact hw.places.owed_spend hview (hsame.trans ht) h.spent
        (congrArg JobOptions.attempts h.opts)
    · have hle := hw.places.spent_le hview
      have hgone := hself hnone
      have hleft := hout i
      simp only [Custody.total, custody] at hle hleft
      simp only [Custody.owed, hnone, hview, Option.elim_none, Option.elim_some]
      simp only [custody]
      omega
  · rw [Function.update_of_ne hi] at ht
    have hact := (hactive i).trans (h.active_other i hi)
    refine hw.places.owed_shrink ?_ hact ?_
    · have hshelf := hshelved i hi
      have hleft := hout i
      simp only [Custody.total, custody] at hleft ⊢
      omega
    · exact (hrec i).imp_left fun hsame => hsame.trans ht

theorem finishTask_pays (hw : Inv w []) {id : ℕ} {r r' : Job D R P} {t : InMemoryStore D R P}
    (hr : w.queue.store.getJob id = some r) (h : Finished w.queue.store t id r r')
    (workerId : Uuid) (state : JobState) (tasks : List (Task D R P))
    {follow : Queue D R P → JobMeta D R P → KioResult Unit × Queue D R P}
    (hfollow : ∀ q entry, ∃ t, (follow q entry).2 = { q with store := t } ∧
      Queue.Followed q.store t id r'.attemptsMade entry.job.opts.attempts) :
    Pays (w.custody []) (custody { w with
      queue := (Queue.settle { w.queue with store := t } id workerId state follow).2,
      tasks } []) := by
  cases hent : w.queue.jobsInProgress.get? id with
  | none =>
    simp only [Queue.settle, hent]
    exact ⟨owed_finished hw hr h (fun j _ => le_rfl) (fun j => rfl) (fun j => le_rfl)
      (fun j => Or.inl rfl) (fun _ => le_rfl), h.lastId⟩
  | some entry =>
    obtain ⟨u, hu, hfol⟩ :=
      Queue.settle_spec (q := { w.queue with store := t }) hent workerId state hfollow
    rw [hu]
    rcases hfol with ⟨hre, -⟩ | hpr
    · refine ⟨owed_finished hw hr h (fun j hj => ?_) (congrFun hre.active) (fun j => le_rfl)
        (fun j => Or.inl (congrFun hre.record j)) (fun hnone => ?_), hre.lastId.trans h.lastId⟩
      · have hle := hre.shelved j
        rwa [if_neg hj] at hle
      · -- the record is the finished one
        have hsome : u.recordView id = some r'.view := by
          rw [hre.record, h.record, Function.update_self]
        rw [show u.recordView id = none from hnone] at hsome
        cases hsome
    · exact ⟨owed_finished hw hr h (fun j _ => (congrFun hpr.shelved j).le) (congrFun hpr.active)
        (fun j => le_rfl) hpr.record (fun _ => (congrFun hpr.shelved id).le),
        hpr.lastId.trans h.lastId⟩

theorem finish_pays (hw : Inv w []) {i : ℕ} {task : Task D R P}
    (returned : Except CaughtError R) (clock : Clock) :
    Pays (w.custody []) (custody { w with
      queue := (w.queue.processJob task.job task.token task.token.worker returned clock).2
      tasks := w.tasks.eraseIdx i } []) := by
  have hdrop : Pays (w.custody []) (custody { w with tasks := w.tasks.eraseIdx i } []) :=
    pays_fewerCopies hw (fun i => le_rfl) rfl rfl rfl
  rw [Queue.processJob_eq]
  cases hm : task.job.getMetrics with
  | error e =>
    rw [Queue.moveFinished_error hm]
    exact hdrop
  | ok metrics =>
    cases hr : w.queue.store.getJob (task.job.id.getD 0) with
    | none =>
      rw [Queue.moveFinished_missing hw.unpaused hm hr]
      exact hdrop
    | some r =>
      obtain ⟨t, r', heq, hfin⟩ := Queue.moveFinished_spec hw.unpaused hm hr task.token returned
        clock
      rw [heq]
      apply finishTask_pays hw hr hfin
      intro q entry
      exact (q.followUp_followStep _ _ r' entry clock).spec

theorem failMissed_pays {id : ℕ} (hw : Inv w (id :: T)) (dateTime : Dt) (clock : Clock) :
    Pays (w.custody (id :: T))
      (custody { w with queue := w.queue.failMissed dateTime clock id } T) := by
  have htoken := w.queue.store.agree_getToken id clock.instant
  have hinv := (hw.agree htoken).inv
  refine (pays_agree htoken).trans ?_
  generalize hw₁ : w.setStore (w.queue.store.getToken id clock.instant).2 = w₁ at hinv ⊢
  have hq : w.queue.failMissed dateTime clock id =
      (w₁.queue.moveJobToFinishedOrFailed id dateTime.timestampMicros
        ((w.queue.store.getToken id clock.instant).1.getD ⟨0, 0, 0⟩) .failed
        (.failed ⟨(w.queue.store.getCounter (.job id) (some .attemptsMade)).getD 0,
          Queue.missedDelayDeadline⟩) none clock).2 := by
    rw [← hw₁]
    rfl
  have hsys : ∀ q, ({ w with queue := q } : System D R P) = { w₁ with queue := q } := by
    intro q
    rw [← hw₁]
    rfl
  rw [hsys, hq]
  cases hr : w₁.queue.store.getJob id with
  | none =>
    rw [Queue.moveJobToFinishedOrFailed_missing hinv.unpaused hr]
    refine pays_collector (c := w₁.collector) hinv fun j => ?_
    rw [count_cons_ite]
    omega
  | some r =>
    obtain ⟨t, r', heq, hfin⟩ := Queue.moveJobToFinishedOrFailed_spec hinv.unpaused hr
      dateTime.timestampMicros ((w.queue.store.getToken id clock.instant).1.getD ⟨0, 0, 0⟩)
      (Or.inl rfl : JobState.failed = .failed ∨ _)
      (.failed ⟨(w.queue.store.getCounter (.job id) (some .attemptsMade)).getD 0,
        Queue.missedDelayDeadline⟩) none clock
    rw [heq]
    refine ⟨owed_finished hinv hr hfin (fun j _ => le_rfl) (fun j => rfl) (fun j => ?_)
      (fun j => Or.inl rfl) (fun _ => le_rfl), hfin.lastId⟩
    simp only [custody, count_cons_ite]
    omega

theorem failAllMissed_pays {missed : List ℕ} (hw : Inv w missed) (dateTime : Dt) (clock : Clock) :
    Pays (w.custody missed) (custody { w with
      queue := missed.foldl (fun q jobId => q.failMissed dateTime clock jobId) w.queue } []) := by
  induction missed generalizing w with
  | nil => exact Pays.refl _
  | cons id missed ih =>
    exact (failMissed_pays hw dateTime clock).trans (ih (failMissed_tracks hw dateTime clock).inv)

theorem promote_pays (hw : Inv w []) (dateTime : Dt) (intervalMs : ℤ) (clock : Clock) :
    Pays (w.custody []) ((w.promote dateTime intervalMs clock).custody []) := by
  unfold promote Queue.promoteJobs
  by_cases hd : (!w.queue.currentMetrics.hasDelayed) = true
  · simp only [if_pos hd]
    exact Pays.refl _
  · simp only [if_neg hd]
    cases hadd : dateTime.addMillis intervalMs with
    | error e => exact Pays.refl _
    | ok until_ =>
      have htake := getDelayedAt_tracks hw dateTime.timestampMillis until_.timestampMillis
      have hsend := sendPromotions_tracks htake.inv
      refine Pays.trans (pays_fewerCopies hw (w.total_getDelayedAt_le dateTime.timestampMillis
        until_.timestampMillis) rfl rfl rfl) ?_
      refine Pays.trans (pays_collector htake.inv (count_sendPromotions_le _ _ _ _)) ?_
      exact failAllMissed_pays hsend.inv dateTime clock

theorem addOne_owed (hw : Inv w []) (item : NewJob D) (queueOpts : QueueOpts) (isPaused : Bool)
    (clock : Clock) {i : ℕ} (hi : i ≤ w.queue.store.idCounter) :
    (w.setStore (w.queue.store.addOne item queueOpts isPaused clock).2).owed i ≤ w.owed i := by
  rcases w.queue.store.addOne_spec item queueOpts isPaused clock with
    ⟨e, counter, heq⟩ | ⟨job, t, heq, h⟩ <;> rw [heq]
  · exact le_rfl
  · have hne : i ≠ w.queue.store.idCounter + 1 := by omega
    have hs := h.shelved i
    have hr := congrFun h.record i
    rw [if_neg hne] at hs
    rw [Function.update_of_ne hne] at hr
    refine hw.places.owed_shrink ?_ (congrFun h.active i) (Or.inl hr)
    have ha := congrFun h.active i
    simp only [Custody.total, custody, setStore]
    omega

theorem addBulk_owed (hw : Inv w []) (items : List (NewJob D)) (queueOpts : QueueOpts)
    (isPaused : Bool) (clock : Clock) {i : ℕ} (hi : i ≤ w.queue.store.idCounter) :
    (w.setStore (w.queue.store.addBulk items queueOpts isPaused clock).2).owed i ≤ w.owed i ∧
      i ≤ (w.queue.store.addBulk items queueOpts isPaused clock).2.idCounter := by
  refine (addBulk_keeps (motive := fun t => Inv (w.setStore t) [] ∧
    (w.setStore t).owed i ≤ w.owed i ∧ i ≤ t.idCounter) ?_ ⟨hw, le_rfl, hi⟩).2
  rintro item - t ⟨hinv, hle, hlast⟩
  refine ⟨(addOne_tracks hinv item queueOpts isPaused clock).inv, ?_, ?_⟩
  · exact (addOne_owed hinv item queueOpts isPaused clock hlast).trans hle
  · rw [idCounter_addOne]
    omega

def adds : Action D R → Bool
  | .addBulk _ _ => true
  | _ => false

/-- An action that adds no jobs takes one from what the fetched id is owed, if it is a poll. -/
theorem step_pays {a : Action D R} (hw : Inv w []) (ha : adds a = false)
    (h : w.step a = some w') :
    (∀ i, w'.owed i + (if w.fetched a = some i then 1 else 0) ≤ w.owed i) ∧
      w'.queue.store.idCounter = w.queue.store.idCounter := by
  have hpays : Pays (w.custody []) (w'.custody []) → w.fetched a = none →
      (∀ i, w'.owed i + (if w.fetched a = some i then 1 else 0) ≤ w.owed i) ∧
        w'.queue.store.idCounter = w.queue.store.idCounter := by
    intro hp hnone
    rw [hnone]
    exact ⟨hp.owed, hp.lastId⟩
  cases a with
  | addBulk items clock => cases ha
  | pauseOrResume =>
    obtain rfl := Option.some.inj h
    exact hpays (pays_agree (agree_pauseOrResume w.queue)) rfl
  | getMetrics =>
    obtain rfl := Option.some.inj h
    exact hpays (pays_agree (s := w.queue.getMetrics.2.store) ⟨rfl, rfl, rfl, rfl, rfl⟩) rfl
  | poll token opts clock =>
    obtain rfl := Option.some.inj h
    exact poll_pays hw token opts clock
  | storeHandle jobId handle =>
    obtain rfl := Option.some.inj h
    exact hpays ⟨fun i => le_rfl, rfl⟩ rfl
  | finish i returned clock =>
    obtain ⟨task, -, rfl⟩ := Option.map_eq_some_iff.mp h
    exact hpays (finish_pays hw returned clock) rfl
  | registerTimer timer =>
    obtain ⟨c, rfl, hle⟩ := registerTimer_spec h
    exact hpays (pays_collector hw (hle [])) rfl
  | promote dateTime intervalMs clock =>
    obtain rfl := Option.some.inj h
    exact hpays (promote_pays hw dateTime intervalMs clock) rfl
  | expire i =>
    obtain ⟨c, rfl, hle⟩ := expire_spec h
    exact hpays (pays_collector hw (hle [])) rfl
  | deliver i =>
    obtain ⟨jobId, q, hi, rfl⟩ := deliver_spec h
    exact hpays (pays_fewerCopies hw (total_deliver_le hi []) rfl rfl rfl) rfl

theorem step_owed {a : Action D R} (hw : Inv w []) (h : w.step a = some w') {i : ℕ}
    (hi : i ≤ w.queue.store.idCounter) :
    w'.owed i + (if w.fetched a = some i then 1 else 0) ≤ w.owed i ∧
      i ≤ w'.queue.store.idCounter := by
  cases ha : adds a with
  | false =>
    obtain ⟨howed, hlast⟩ := step_pays hw ha h
    exact ⟨howed i, hi.trans hlast.ge⟩
  | true =>
    cases a with
    | addBulk items clock =>
      obtain rfl := Option.some.inj h
      exact addBulk_owed hw items w.queue.opts w.queue.isPaused clock hi
    | _ => cases ha

/-! ### Runs -/

/-- From every state on that a queue reaches, and however all parties go on, a stored job is
fetched at most as often as its attempts allow, less those made and under way. -/
theorem attempts_bound_fetches (keyPrefix : Option String) (name : String)
    (opts : Option QueueOpts) (id : Uuid) (backoff : BackOff) (actions : List (Action D R)) :
    Always step (fun w : System D R P => ∀ jobId job, w.queue.store.getJob jobId = some job →
      ∀ rest w', run step w rest = some w' →
        (observed step fetched w rest).count jobId + job.attemptsMade +
          w.queue.store.active.values.count jobId ≤ max 1 job.opts.attempts)
      (init keyPrefix name opts id backoff) actions := by
  have hstep : ∀ (w : System D R P) a w', Inv w [] → step w a = some w' → Inv w' [] :=
    fun w a w' hw h => (step_tracks hw h).inv
  refine always_of_invariant_all hstep ?_ (init_inv keyPrefix name opts id backoff) actions
  intro w hw jobId job hjob rest w' hrun
  have hview : (w.custody []).record jobId = some job.view := by
    simp [custody, recordView, hjob]
  have hold : jobId ≤ w.queue.store.idCounter := by
    by_contra hlt
    rw [(hw.places.fresh jobId (not_le.mp hlt)).2.1] at hview
    cases hview
  have hkept : ∀ (w : System D R P) a w', Inv w [] ∧ jobId ≤ w.queue.store.idCounter → True →
      step w a = some w' → Inv w' [] ∧ jobId ≤ w'.queue.store.idCounter :=
    fun w a w' h _ hs => ⟨hstep w a w' h.1 hs, (step_owed h.1 hs h.2).2⟩
  have hle : (observed step fetched w rest).count jobId + w'.owed jobId ≤ w.owed jobId :=
    count_observed_add_le hkept (fun w a w' h _ hs => (step_owed h.1 hs h.2).1) ⟨hw, hold⟩
      (fun _ _ => trivial) hrun
  have hspent := hw.places.spent_le hview
  have hactive : (w.custody []).active jobId = w.queue.store.active.values.count jobId := rfl
  simp only [owed, Custody.owed, hview, Option.elim_some, hactive, Job.view] at hle
  simp only [Custody.total, hactive, Job.view] at hspent
  omega

def polls : Action D R → Bool
  | .poll _ _ _ => true
  | _ => false

/-- As long as something is waiting or prioritized, every poll fetches an id. -/
theorem length_observed_of_not_drained {rest : List (Action D R)}
    (h : ∀ front back v, rest = front ++ back → run step w front = some v →
      ¬ v.queue.store.Drained) (hrun : run step w rest = some w') :
    (observed step fetched w rest).length = rest.countP polls := by
  induction rest generalizing w with
  | nil => rfl
  | cons a rest ih =>
    obtain ⟨v, hv, hrun⟩ := run_cons.mp hrun
    have hrest := ih (fun front back u hsplit hu =>
      h (a :: front) back u (by rw [hsplit, List.cons_append]) (run_cons.mpr ⟨v, hv, hu⟩)) hrun
    have hone : (w.fetched a).toList.length = if polls a then 1 else 0 := by
      cases a with
      | poll token opts clock =>
        have hsome : w.queue.store.nextId ≠ none := fun hnone =>
          h [] _ w rfl rfl ((nextId_eq_none_iff _).mp hnone)
        obtain ⟨jobId, hjobId⟩ := Option.ne_none_iff_exists'.mp hsome
        simp [fetched, polls, hjobId]
      | _ => rfl
    rw [observed_cons hv, List.length_append, hrest, hone, List.countP_cons]
    omega

/-- From every state on that a queue reaches, a run that adds no jobs and polls more often than
the jobs are owed fetches passes through a state in which nothing is waiting or prioritized,
whatever the outcomes of the jobs and the order of the actions. -/
theorem polls_drain (keyPrefix : Option String) (name : String) (opts : Option QueueOpts)
    (id : Uuid) (backoff : BackOff) (actions : List (Action D R)) :
    Always step (fun w : System D R P => ∀ rest w', (∀ a ∈ rest, adds a = false) →
      run step w rest = some w' →
      ∑ i ∈ Finset.range (w.queue.store.idCounter + 1), w.owed i < rest.countP polls →
        ∃ front back v, rest = front ++ back ∧ run step w front = some v ∧
          v.queue.store.Drained)
      (init keyPrefix name opts id backoff) actions := by
  have hstep : ∀ (w : System D R P) a w', Inv w [] → step w a = some w' → Inv w' [] :=
    fun w a w' hw h => (step_tracks hw h).inv
  refine always_of_invariant_all hstep ?_ (init_inv keyPrefix name opts id backoff) actions
  intro w hw rest w' hadds hrun hpolls
  by_contra hnot
  have hlength := length_observed_of_not_drained (w := w)
    (fun front back v hsplit hv hd => hnot ⟨front, back, v, hsplit, hv, hd⟩) hrun
  have hcount : ∀ b, (observed step fetched w rest).count b ≤ w.owed b := by
    intro b
    have hle : (observed step fetched w rest).count b + w'.owed b ≤ w.owed b :=
      count_observed_add_le (fun w a w' h _ hs => hstep w a w' h hs)
        (fun w a w' h ha hs => (step_pays h ha hs).1 b) hw hadds hrun
    omega
  have hsum : (observed step fetched w rest).length ≤
      ∑ i ∈ Finset.range (w.queue.store.idCounter + 1), w.owed i :=
    length_le_sum_of_count_le hcount fun b hb => hw.places.owed_of_lastId_lt hb
  omega

end System

end Kiomq
