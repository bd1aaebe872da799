import Kiomq.Queue.Tally

/-!
# When all jobs are completed

`all_jobs_completed` does not look at jobs: it compares the size of the set of completed
jobs with the id counter. A chronicle of a run keeps which jobs were added and how each of
them ended last. The answer agrees with the chronicle along every run in which each id is
given to a job that is added and each successful run leaves one entry of its own.
-/

namespace Kiomq

open Foundations

variable {D R P : Type}

namespace InMemoryStore

/-! ### Accepted additions -/

/-- The checks of an insertion pass: the delay can be computed, and it is zero or not below
the limit. -/
def NewJob.accepted (queueOpts : QueueOpts) (now : Dt) (item : NewJob D) : Bool :=
  let delay := (item.opts queueOpts).delay
  match delay.nextOccurranceTimestampMs now, delay.asDiffMs now with
  | .ok _, .ok ms => !decide (0 < castUnsigned ms ∧ castUnsigned ms < minDelayMsLimit)
  | _, _ => false

theorem isOk_addOne (s : InMemoryStore D R P) (item : NewJob D) (queueOpts : QueueOpts)
    (isPaused : Bool) (clock : Clock) :
    (s.addOne item queueOpts isPaused clock).1.isOk = item.accepted queueOpts clock.utc := by
  obtain ⟨pc, counter, heq⟩ := s.addOne_eq item queueOpts isPaused clock
  rw [heq]
  unfold InMemoryStore.insert checkOptions NewJob.accepted NewJob.opts
  dsimp only
  cases (updateJobOpts queueOpts (item.2.1.getD {})).delay.nextOccurranceTimestampMs clock.utc with
  | error e => rfl
  | ok expected =>
    cases hd : (updateJobOpts queueOpts (item.2.1.getD {})).delay.asDiffMs clock.utc with
    | error e => rfl
    | ok ms =>
      simp only [Job.addOpts, Job.new, hd, Except.map]
      split_ifs with hlow <;> simp [hlow, Except.isOk, Except.toBool]

/-- The store after `n` jobs have been added: each of the next ids has a record, and apart
from them nothing has come to be on a shelf. -/
structure Enrolled (s t : InMemoryStore D R P) (n : ℕ) : Prop where
  lastId : t.idCounter = s.idCounter + n
  completed : t.completed = s.completed
  processing : t.processing = s.processing
  state : ∀ j, t.getState j = some .completed → s.getState j = some .completed
  kept : ∀ j, s.jobExists j = true → t.jobExists j = true
  known : ∀ j, s.idCounter < j → j ≤ t.idCounter → t.jobExists j = true
  shelved : ∀ j, j ≤ s.idCounter → t.shelved j ≤ s.shelved j
  fresh : ∀ j, t.shelved j ≠ 0 → s.shelved j ≠ 0 ∨ s.idCounter < j
  active : t.activeCount = s.activeCount

theorem Enrolled.refl (s : InMemoryStore D R P) : Enrolled s s 0 where
  lastId := rfl
  completed := rfl
  processing := rfl
  state _ h := h
  kept _ h := h
  known _ hlt hle := absurd hle (Nat.not_le.mpr hlt)
  shelved _ _ := le_rfl
  fresh _ h := Or.inl h
  active := rfl

theorem Enrolled.trans {s t u : InMemoryStore D R P} {m n : ℕ} (h : Enrolled s t m)
    (h' : Enrolled t u n) : Enrolled s u (m + n) where
  lastId := by rw [h'.lastId, h.lastId, Nat.add_assoc]
  completed := h'.completed.trans h.completed
  processing := h'.processing.trans h.processing
  state j hj := h.state j (h'.state j hj)
  kept j hj := h'.kept j (h.kept j hj)
  known j hlt hle := by
    by_cases hj : j ≤ t.idCounter
    · exact h'.kept j (h.known j hlt hj)
    · exact h'.known j (by omega) hle
  shelved j hj := by
    have hlast := h.lastId
    exact (h'.shelved j (by omega)).trans (h.shelved j hj)
  fresh j hj := by
    have hlast := h.lastId
    rcases h'.fresh j hj with hj | hj
    · exact h.fresh j hj
    · exact Or.inr (by omega)
  active := h'.active.trans h.active

theorem place_frame (s : InMemoryStore D R P) (a : Admission D R P) (pc id : ℕ)
    (isPaused : Bool) :
    (s.place a pc id isPaused).2.completed = s.completed ∧
      (s.place a pc id isPaused).2.processing = s.processing := by
  by_cases hd : 0 < a.delay
  · cases he : a.expected with
    | none => simp [place, hd, he]
    | some due =>
      simp only [place, if_pos hd, he]
      exact ⟨rfl, rfl⟩
  · by_cases hp : 0 < a.job.opts.priority
    · simp only [place, if_neg hd, if_pos hp]
      exact ⟨rfl, rfl⟩
    · simp only [place, if_neg hd, if_neg hp]
      cases isPaused <;> exact ⟨rfl, rfl⟩

theorem addOne_frame (s : InMemoryStore D R P) (item : NewJob D) (queueOpts : QueueOpts)
    (isPaused : Bool) (clock : Clock) :
    (s.addOne item queueOpts isPaused clock).2.completed = s.completed ∧
      (s.addOne item queueOpts isPaused clock).2.processing = s.processing := by
  obtain ⟨pc, counter, heq⟩ := s.addOne_eq item queueOpts isPaused clock
  rw [heq]
  unfold InMemoryStore.insert
  split
  · exact ⟨rfl, rfl⟩
  · exact place_frame { s with priorityCounter := counter, idCounter := s.idCounter + 1 } _ pc _ _

theorem addOne_enrolled (s : InMemoryStore D R P) {item : NewJob D} {queueOpts : QueueOpts}
    {clock : Clock} (h : item.accepted queueOpts clock.utc = true) :
    ∃ job t, s.addOne item queueOpts false clock = (.ok job, t) ∧ Enrolled s t 1 := by
  have hok := s.isOk_addOne item queueOpts false clock
  rw [h] at hok
  have hframe := s.addOne_frame item queueOpts false clock
  have hfiled := s.refiled_addOne item queueOpts clock
  rcases s.addOne_spec item queueOpts false clock with ⟨e, counter, heq⟩ | ⟨job, t, heq, hnew⟩
  · simp [heq, Except.isOk, Except.toBool] at hok
  · rw [heq] at hframe hfiled
    refine ⟨job, t, heq, ?_⟩
    have hrecord : ∀ j, t.jobExists j = if j = s.idCounter + 1 then true else s.jobExists j := by
      intro j
      rw [← recordView_isSome, ← recordView_isSome, hnew.record, Function.update_apply]
      split_ifs <;> rfl
    constructor
    · exact hnew.lastId
    · exact hframe.1
    · exact hframe.2
    · intro j hj
      rcases hfiled with ⟨counter, hsame⟩ | ⟨place, hshelf, hr⟩
      · dsimp only at hsame
        rw [hsame] at hj
        exact hj
      · exact hr.not_completed (by rintro rfl; simp [Place.isShelf] at hshelf) j hj
    · intro j hj
      rw [hrecord, hj, ite_self]
    · intro j hlt hle
      have hlast := hnew.lastId
      rw [hrecord, if_pos (by omega)]
    · intro j hj
      have hshelved := hnew.shelved j
      rwa [if_neg (by omega)] at hshelved
    · intro j hj
      have hshelved := hnew.shelved j
      by_cases hnext : j = s.idCounter + 1
      · exact Or.inr (by omega)
      · rw [if_neg hnext] at hshelved
        exact Or.inl (by omega)
    · exact hnew.active

theorem addBulk_enrolled (s : InMemoryStore D R P) {items : List (NewJob D)}
    {queueOpts : QueueOpts} {clock : Clock}
    (h : items.all (NewJob.accepted queueOpts clock.utc) = true) :
    Enrolled s (s.addBulk items queueOpts false clock).2 items.length := by
  induction items generalizing s with
  | nil => exact .refl s
  | cons item rest ih =>
    rw [List.all_cons, Bool.and_eq_true] at h
    obtain ⟨job, t, heq, hone⟩ := s.addOne_enrolled h.1
    have hrest := hone.trans (ih t h.2)
    simp only [addBulk, heq, List.length_cons]
    rwa [Nat.add_comm] at hrest

/-- No job is waiting, paused, prioritized, delayed, stalled or active. -/
def NoneLeft (s : InMemoryStore D R P) : Prop :=
  s.waiting.values = [] ∧ s.paused.values = [] ∧ s.prioritized.values = [] ∧
    s.delayed.values = [] ∧ s.stalled.keys = [] ∧ s.active.values = []

end InMemoryStore

/-! ### The chronicle of a run -/

inductive Outcome
  | success
  | failure
  deriving DecidableEq, Repr

def Outcome.of {R : Type} : Except CaughtError R → Outcome
  | .ok _ => .success
  | .error _ => .failure

/-- A system with the ids of the jobs that were added to it and their latest outcomes. -/
structure Chronicle (D R P : Type) where
  system : System D R P
  added : List ℕ
  outcome : ℕ → Option Outcome

namespace Chronicle

open InMemoryStore

def init (keyPrefix : Option String) (name : String) (opts : Option QueueOpts) (id : Uuid)
    (backoff : BackOff) : Chronicle D R P :=
  ⟨System.init keyPrefix name opts id backoff, [], fun _ => none⟩

/-- The ids that a call has used up and that have a record now. -/
def newIds (s t : InMemoryStore D R P) : List ℕ :=
  (List.range' (s.idCounter + 1) (t.idCounter - s.idCounter)).filter t.jobExists

/-- The delayed jobs that a promotion fails because they missed their deadline. -/
def missed (q : Queue D R P) (dateTime : Dt) (intervalMs : ℤ) : List ℕ :=
  if !q.currentMetrics.hasDelayed then []
  else
    match dateTime.addMillis intervalMs with
    | .error _ => []
    | .ok until_ => (q.store.getDelayedAt dateTime.timestampMillis until_.timestampMillis).1.2

def note (outcome : ℕ → Option Outcome) (ids : List ℕ) (o : Outcome) : ℕ → Option Outcome :=
  fun j => if j ∈ ids then some o else outcome j

def record (c : Chronicle D R P) (a : Action D R) (w : System D R P) : Chronicle D R P :=
  match a with
  | .addBulk _ _ =>
    { c with system := w, added := c.added ++ newIds c.system.queue.store w.queue.store }
  | .finish i returned _ =>
    let ids := (c.system.tasks[i]?.map Task.jobId).toList
    { c with system := w, outcome := note c.outcome ids (.of returned) }
  | .promote dateTime intervalMs _ =>
    { c with
      system := w
      outcome := note c.outcome (missed c.system.queue dateTime intervalMs) .failure }
  | _ => { c with system := w }

def step (c : Chronicle D R P) (a : Action D R) : Option (Chronicle D R P) :=
  (c.system.step a).map (c.record a)

/-- The answer of `all_jobs_completed` on fresh metrics is that of the chronicle. -/
def Exact (c : Chronicle D R P) : Prop :=
  c.system.queue.getMetrics.1.allJobsCompleted = true ↔
    c.added ≠ [] ∧ (∀ j ∈ c.added, c.outcome j = some .success) ∧ c.system.queue.store.NoneLeft

/-- Every job that is added is accepted, and every task that ends does so regularly and
leaves at most one entry of its own. -/
def countsOnce (c : Chronicle D R P) : Action D R → Bool
  | .addBulk items clock => items.all (NewJob.accepted c.system.queue.opts clock.utc)
  | .finish i returned clock =>
    c.system.tasks[i]?.all fun t => c.system.queue.endsOnce t.job returned clock
  | _ => true

/-! ### The invariant -/

/-- The tally of completed jobs is that of the chronicle: every id belongs to a job that was
added, the completed jobs are those whose latest outcome is success, each once, and none of
them has a copy anywhere. -/
structure Recorded (c : Chronicle D R P) : Prop where
  held : System.Inv c.system []
  running : c.system.queue.store.processing = c.system.tasks.length
  unmarked : System.Open c.system []
  positive : (c.system.custody []).total 0 = 0
  once : c.system.queue.store.completed.values.Nodup
  closed : ∀ j ∈ c.system.queue.store.completed.values, (c.system.custody []).total j = 0
  known : ∀ j ∈ c.system.queue.store.completed.values,
    1 ≤ j ∧ j ≤ c.system.queue.store.idCounter
  succeeded : ∀ j, j ∈ c.system.queue.store.completed.values ↔ c.outcome j = some .success
  added : c.added = List.range' 1 c.system.queue.store.idCounter

variable {c : Chronicle D R P} {w : System D R P}

theorem Recorded.steady (h : Recorded c) (hheld : System.Inv w [])
    (hs : System.Steady c.system [] w []) {outcome : ℕ → Option Outcome}
    (houtcome : ∀ j, outcome j = c.outcome j ∨
      outcome j = some .failure ∧ (c.system.custody []).total j ≠ 0) :
    Recorded { c with system := w, outcome } := by
  have hcompleted := hs.tally.completed
  constructor
  · exact hheld
  · have hrun := hs.running
    have hrun' := h.running
    dsimp only
    omega
  · exact h.unmarked.steady hs
  · exact Nat.le_zero.mp ((hs.copies 0).trans h.positive.le)
  · rw [hcompleted]
    exact h.once
  · rw [hcompleted]
    intro j hj
    exact Nat.le_zero.mp ((hs.copies j).trans (h.closed j hj).le)
  · rw [hcompleted, hs.tally.lastId]
    exact h.known
  · intro j
    rw [hcompleted]
    change _ ↔ outcome j = some .success
    rcases houtcome j with hsame | ⟨hfailed, hcopy⟩
    · rw [hsame]
      exact h.succeeded j
    · rw [hfailed]
      constructor
      · intro hj
        exact absurd (h.closed j hj) hcopy
      · intro hj
        cases hj
  · rw [hs.tally.lastId]
    exact h.added

theorem Recorded.step_steady (h : Recorded c) (hheld : System.Inv w [])
    (hs : System.Steady c.system [] w []) : Recorded { c with system := w } :=
  h.steady hheld hs fun _ => Or.inl rfl

theorem Recorded.counted (h : Recorded c) (hheld : System.Inv w []) {id key : ℕ}
    (hid : (c.system.custody []).total id ≠ 0)
    (hkey : c.system.queue.store.completed.get? key = none)
    (hs : System.Counted c.system [] w id key) :
    Recorded { c with system := w, outcome := note c.outcome [id] .success } := by
  have hvalues : w.queue.store.completed.values.Perm
      (id :: c.system.queue.store.completed.values) := by
    rw [hs.completed]
    exact (c.system.queue.store.completed.insert_perm id hkey).map Prod.snd
  have hmem : ∀ j, j ∈ w.queue.store.completed.values ↔
      j = id ∨ j ∈ c.system.queue.store.completed.values := by
    intro j
    rw [hvalues.mem_iff, List.mem_cons]
  have hnew : id ∉ c.system.queue.store.completed.values := fun hj => hid (h.closed id hj)
  constructor
  · exact hheld
  · have hrun := hs.running
    have hrun' := h.running
    dsimp only
    omega
  · intro j hj hstate
    by_cases hjid : j = id
    · subst hjid
      exact hj hs.gone
    · have hle := hs.copies j
      exact h.unmarked j (by dsimp only at hj; omega) (hs.state j hjid hstate)
  · exact Nat.le_zero.mp ((hs.copies 0).trans h.positive.le)
  · exact hvalues.nodup_iff.mpr (List.nodup_cons.mpr ⟨hnew, h.once⟩)
  · intro j hj
    rcases (hmem j).mp hj with rfl | hj
    · exact hs.gone
    · exact Nat.le_zero.mp ((hs.copies j).trans (h.closed j hj).le)
  · intro j hj
    dsimp only
    rw [hs.lastId]
    rcases (hmem j).mp hj with rfl | hj
    · refine ⟨?_, h.held.places.le_lastId hid⟩
      by_contra hzero
      obtain rfl : j = 0 := by omega
      exact hid h.positive
    · exact h.known j hj
  · intro j
    rw [hmem]
    by_cases hj : j = id
    · simp [note, hj]
    · simp [note, hj, h.succeeded j]
  · dsimp only
    rw [hs.lastId]
    exact h.added

/-! ### Adding jobs -/

theorem newIds_enrolled {s t : InMemoryStore D R P} {n : ℕ} (h : Enrolled s t n) :
    newIds s t = List.range' (s.idCounter + 1) n := by
  have hlast := h.lastId
  unfold newIds
  rw [hlast, Nat.add_sub_cancel_left, List.filter_eq_self]
  intro j hj
  rw [List.mem_range'_1] at hj
  exact h.known j (by omega) (by omega)

theorem Recorded.enrolled (h : Recorded c) {t : InMemoryStore D R P} {n : ℕ}
    (hheld : System.Inv (c.system.setStore t) [])
    (hs : Enrolled c.system.queue.store t n) :
    Recorded { c with
      system := c.system.setStore t
      added := c.added ++ newIds c.system.queue.store t } := by
  have hlast := hs.lastId
  have hcompleted := hs.completed
  have hcopies : ∀ j, j ≤ c.system.queue.store.idCounter →
      ((c.system.setStore t).custody []).total j ≤ (c.system.custody []).total j := by
    intro j hj
    have hshelved := hs.shelved j hj
    have hactive := congrFun hs.active j
    simp only [Custody.total, System.custody, System.setStore]
    omega
  constructor
  · exact hheld
  · exact hs.processing.trans h.running
  · intro j hj hstate
    by_cases hnew : c.system.queue.store.idCounter < j
    · -- a new id had no record before
      obtain ⟨-, hrecord, -⟩ := h.held.places.fresh j hnew
      have hbefore := hs.state j hstate
      have hnone : c.system.queue.store.getJob j = none := by
        simpa [System.custody, recordView] using hrecord
      simp [getState, hnone] at hbefore
    · have hle := hcopies j (by omega)
      exact h.unmarked j (by dsimp only at hj; omega) (hs.state j hstate)
  · exact Nat.le_zero.mp ((hcopies 0 (Nat.zero_le _)).trans h.positive.le)
  · change t.completed.values.Nodup
    rw [hcompleted]
    exact h.once
  · intro j hj
    change j ∈ t.completed.values at hj
    rw [hcompleted] at hj
    exact Nat.le_zero.mp ((hcopies j (h.known j hj).2).trans (h.closed j hj).le)
  · intro j hj
    change j ∈ t.completed.values at hj
    rw [hcompleted] at hj
    obtain ⟨hpos, hle⟩ := h.known j hj
    change 1 ≤ j ∧ j ≤ t.idCounter
    omega
  · intro j
    change j ∈ t.completed.values ↔ _
    rw [hcompleted]
    exact h.succeeded j
  · change c.added ++ newIds c.system.queue.store t = List.range' 1 t.idCounter
    rw [newIds_enrolled hs, h.added, hlast, Nat.add_comm _ 1, List.range'_append_1]

/-! ### Steps -/

theorem copies_of_mem_missed {q : Queue D R P} {dateTime : Dt} {intervalMs : ℤ} {j : ℕ}
    (h : j ∈ missed q dateTime intervalMs) : q.store.shelved j ≠ 0 := by
  unfold missed at h
  split_ifs at h
  · cases h
  · split at h
    · cases h
    · next until_ _ =>
      have hmem := q.store.mem_delayed_of_mem_getDelayedAt dateTime.timestampMillis
        until_.timestampMillis (List.mem_append_right _ h)
      exact (q.store.exists_shelf_iff j).mp ⟨.delayed, rfl, hmem⟩

theorem finish_recorded (h : Recorded c) {i : ℕ} {task : Task D R P}
    (hi : c.system.tasks[i]? = some task) (returned : Except CaughtError R) (clock : Clock)
    (hends : c.system.queue.endsOnce task.job returned clock = true) :
    Recorded { c with
      system := c.system.finish i task returned clock
      outcome := note c.outcome [task.jobId] (.of returned) } := by
  have hheld : System.Inv (c.system.finish i task returned clock) [] :=
    (System.finish_tracks h.held hi returned clock).inv
  have hcopy : (c.system.custody []).total task.jobId ≠ 0 := by
    have hactive := System.active_of_task h.held hi
    simp only [Custody.total, System.custody]
    omega
  cases returned with
  | ok result =>
    have hlast : c.system.queue.reschedules task.jobId (.ok result) clock = false ∧
        c.system.queue.store.completed.containsKey
          (castUnsigned clock.utc.timestampMicros) = false := by
      unfold Queue.endsOnce at hends
      split at hends
      · simp only [Bool.and_eq_true, Bool.not_eq_true'] at hends
        exact hends.2
      · cases hends
    have hkey : c.system.queue.store.completed.get?
        (castUnsigned clock.utc.timestampMicros) = none := by
      simpa [OrderedMap.containsKey_eq] using hlast.2
    exact h.counted hheld hcopy hkey
      (System.finish_success_counted h.held hi hends hlast.1 h.running)
  | error err =>
    apply h.steady hheld (System.finish_failure_steady h.held hi hends h.running)
    intro j
    by_cases hj : j = task.jobId
    · right
      exact ⟨by simp [note, hj, Outcome.of], hj ▸ hcopy⟩
    · left
      simp [note, hj]

theorem step_recorded {a : Action D R} {c' : Chronicle D R P} (h : Recorded c)
    (hcounts : c.countsOnce a = true) (hstep : c.step a = some c') : Recorded c' := by
  obtain ⟨w, hw, rfl⟩ := Option.map_eq_some_iff.mp hstep
  have hheld := (System.step_tracks h.held hw).inv
  cases a with
  | addBulk items clock =>
    obtain rfl := Option.some.inj hw
    have hpause := h.held.unpaused
    simp only [record, Queue.bulkAdd, hpause] at hheld ⊢
    exact h.enrolled hheld (addBulk_enrolled _ hcounts)
  | pauseOrResume =>
    obtain rfl := Option.some.inj hw
    exact h.step_steady hheld (System.pauseOrResume_steady _ _)
  | getMetrics =>
    obtain rfl := Option.some.inj hw
    exact h.step_steady hheld ⟨fun _ => le_rfl, ⟨rfl, fun _ h => h, rfl⟩, rfl⟩
  | poll token opts clock =>
    obtain rfl := Option.some.inj hw
    exact h.step_steady hheld (System.poll_steady h.held h.unmarked token opts clock)
  | storeHandle jobId handle =>
    obtain rfl := Option.some.inj hw
    exact h.step_steady hheld ⟨fun _ => le_rfl, .refl _, rfl⟩
  | finish i returned clock =>
    obtain ⟨task, hi, rfl⟩ := Option.map_eq_some_iff.mp hw
    simp only [countsOnce, hi, Option.all_some] at hcounts
    simp only [record, hi, Option.map_some, Option.toList_some]
    exact finish_recorded h hi returned clock hcounts
  | registerTimer timer =>
    obtain ⟨collector, rfl, hle⟩ := System.registerTimer_spec hw
    exact h.step_steady hheld (System.collector_steady (hle []))
  | promote dateTime intervalMs clock =>
    obtain rfl := Option.some.inj hw
    apply h.steady hheld (System.promote_steady h.held h.unmarked dateTime intervalMs clock)
    intro j
    by_cases hj : j ∈ missed c.system.queue dateTime intervalMs
    · right
      refine ⟨by simp [note, hj], ?_⟩
      have hshelved := copies_of_mem_missed hj
      simp only [Custody.total, System.custody]
      omega
    · left
      simp [note, hj]
  | expire i =>
    obtain ⟨collector, rfl, hle⟩ := System.expire_spec hw
    exact h.step_steady hheld (System.collector_steady (hle []))
  | deliver i =>
    obtain ⟨jobId, q, hi, rfl⟩ := System.deliver_spec hw
    exact h.step_steady hheld (System.deliver_steady hi)

theorem init_recorded (keyPrefix : Option String) (name : String) (opts : Option QueueOpts)
    (id : Uuid) (backoff : BackOff) :
    Recorded (init keyPrefix name opts id backoff : Chronicle D R P) := by
  have hinv := System.init_inv (D := D) (R := R) (P := P) keyPrefix name opts id backoff
  constructor
  · exact hinv
  · rfl
  · intro j _ hstate
    cases hstate
  · exact System.total_init keyPrefix name opts id backoff 0
  · exact List.nodup_nil
  · intro j hj
    cases hj
  · intro j hj
    cases hj
  · intro j
    constructor
    · intro hj
      cases hj
    · intro hj
      cases hj
  · rfl

/-! ### The answer -/

theorem allJobsCompleted_iff (s : InMemoryStore D R P) :
    s.getMetrics.allJobsCompleted = true ↔
      0 < s.idCounter ∧ s.completed.values.length = s.idCounter ∧ s.processing = 0 ∧
        s.waiting.values = [] ∧ s.prioritized.values = [] ∧ s.delayed.values = [] ∧
        s.stalled.keys = [] ∧ s.active.values = [] := by
  have hmetrics : ∀ m : QueueMetrics, m.allJobsCompleted = true ↔
      0 < m.lastId ∧ m.completed = m.lastId ∧ m.processing = 0 ∧ m.waiting = 0 ∧
        m.prioritized = 0 ∧ m.delayed = 0 ∧ m.stalled = 0 ∧ m.active = 0 := by
    intro m
    simp only [QueueMetrics.allJobsCompleted, QueueMetrics.isIdle, QueueMetrics.queueHasWork,
      QueueMetrics.hasActiveJobs, QueueMetrics.workersIdle, Bool.and_eq_true, Bool.not_eq_true',
      Bool.or_eq_false_iff, decide_eq_true_eq, decide_eq_false_iff_not]
    omega
  rw [hmetrics]
  simp only [InMemoryStore.getMetrics, ConcurrentDeque.len, ConcurrentDeque.values,
    OrderedMap.size, OrderedMap.values, OrderedMap.keys, List.length_map, List.map_eq_nil_iff,
    List.length_eq_zero_iff]

theorem Recorded.full_iff (h : Recorded c) :
    c.system.queue.store.completed.values.length = c.system.queue.store.idCounter ↔
      ∀ j ∈ c.added, c.outcome j = some .success := by
  have hsub : c.system.queue.store.completed.values ⊆ c.added := by
    intro j hj
    obtain ⟨hpos, hle⟩ := h.known j hj
    rw [h.added, List.mem_range'_1]
    omega
  have hlen : c.added.length = c.system.queue.store.idCounter := by
    rw [h.added, List.length_range']
  have hsubperm := List.subperm_of_subset h.once hsub
  constructor
  · intro hfull j hj
    have hperm := hsubperm.perm_of_length_le (hlen.trans hfull.symm).le
    exact (h.succeeded j).mp (hperm.mem_iff.mpr hj)
  · intro hall
    have hnodup : c.added.Nodup := by
      rw [h.added]
      exact List.nodup_range'
    have hback : c.added ⊆ c.system.queue.store.completed.values := fun j hj =>
      (h.succeeded j).mpr (hall j hj)
    have hle := hsubperm.length_le
    have hge := (List.subperm_of_subset hnodup hback).length_le
    omega

theorem Recorded.idle (h : Recorded c) (hactive : c.system.queue.store.active.values = []) :
    c.system.queue.store.processing = 0 := by
  rw [h.running, List.length_eq_zero_iff, List.eq_nil_iff_forall_not_mem]
  intro task htask
  have hle := h.held.places.tasks_le task.jobId
  have hpos : 0 < (c.system.tasks.map Task.jobId).count task.jobId :=
    List.count_pos_iff.mpr (List.mem_map_of_mem htask)
  simp only [System.custody, activeCount, hactive, List.count_nil] at hle
  omega

theorem Recorded.paused_empty (h : Recorded c)
    (hall : ∀ j ∈ c.added, c.outcome j = some .success) :
    c.system.queue.store.paused.values = [] := by
  rw [List.eq_nil_iff_forall_not_mem]
  intro j hj
  have hshelved := (c.system.queue.store.exists_shelf_iff j).mp ⟨.paused, rfl, hj⟩
  have hcopy : (c.system.custody []).total j ≠ 0 := by
    simp only [Custody.total, System.custody]
    omega
  have hle : j ≤ c.system.queue.store.idCounter := h.held.places.le_lastId hcopy
  have hpos : 1 ≤ j := by
    by_contra hzero
    obtain rfl : j = 0 := by omega
    exact hcopy h.positive
  have hmem : j ∈ c.added := by
    rw [h.added, List.mem_range'_1]
    omega
  exact hcopy (h.closed j ((h.succeeded j).mpr (hall j hmem)))

theorem Recorded.exact (h : Recorded c) : c.Exact := by
  have hadded : c.added ≠ [] ↔ 0 < c.system.queue.store.idCounter := by
    rw [h.added, Ne, List.range'_eq_nil_iff]
    omega
  unfold Exact
  change c.system.queue.store.getMetrics.allJobsCompleted = true ↔ _
  rw [allJobsCompleted_iff, h.full_iff, hadded]
  constructor
  · rintro ⟨hlast, hall, -, hwaiting, hprioritized, hdelayed, hstalled, hactive⟩
    exact ⟨hlast, hall, hwaiting, h.paused_empty hall, hprioritized, hdelayed, hstalled, hactive⟩
  · rintro ⟨hlast, hall, hwaiting, -, hprioritized, hdelayed, hstalled, hactive⟩
    exact ⟨hlast, hall, h.idle hactive, hwaiting, hprioritized, hdelayed, hstalled, hactive⟩

/-- In every state of a run in which each id is that of an accepted job and each successful
run leaves one entry of its own, `all_jobs_completed` is exact. -/
theorem exact_of_countsOnce (keyPrefix : Option String) (name : String)
    (opts : Option QueueOpts) (id : Uuid) (backoff : BackOff) (as : List (Action D R))
    (h : Guarded step (fun (c : Chronicle D R P) a => c.countsOnce a = true)
      (init keyPrefix name opts id backoff) as) :
    Always step (fun c : Chronicle D R P => c.Exact) (init keyPrefix name opts id backoff) as := by
  have hinv := init_recorded (D := D) (R := R) (P := P) keyPrefix name opts id backoff
  exact always_of_invariant (fun c a c' hc hcounts hstep => step_recorded hc hcounts hstep)
    (fun c hc => hc.exact) hinv h

/-- One job succeeds at once, the other one after a failure, a retry and a promotion. -/
def retriedRun : List (Action ℕ Unit) :=
  [.addBulk
      [("a", none, 7), ("b", some { attempts := 2, backoff := some (.number 100) }, 8)] ⟨0, 0⟩,
    .poll ⟨1, 1, 1⟩ {} ⟨0, 0⟩, .storeHandle 1 5, .poll ⟨1, 1, 2⟩ {} ⟨0, 0⟩, .storeHandle 2 6,
    .finish 0 (.ok ()) ⟨9, 0⟩, .finish 0 (.error (.error "late" none)) ⟨10, 0⟩, .getMetrics,
    .promote 100000 50 ⟨100000, 100⟩, .expire 0, .deliver 0, .poll ⟨1, 1, 3⟩ {} ⟨150000, 150⟩,
    .storeHandle 2 7, .finish 0 (.ok ()) ⟨200000, 200⟩]

theorem retriedRun_exact :
    (Guarded step (fun (c : Chronicle ℕ Unit Unit) a => c.countsOnce a = true)
        (init none "mail" none 1 .new) retriedRun ∧
      (run step (init none "mail" none 1 .new : Chronicle ℕ Unit Unit) retriedRun).map
        (fun c => c.system.queue.getMetrics.1.allJobsCompleted) = some true) ∧
      Always step (fun c : Chronicle ℕ Unit Unit => c.Exact)
        (init none "mail" none 1 .new) retriedRun :=
  ⟨by decide +kernel, exact_of_countsOnce none "mail" none 1 .new retriedRun (by decide +kernel)⟩

/-- A job is repeated once, and another job fails. -/
def repeatedRun : List (Action ℕ Unit) :=
  [.addBulk [("a", some { attempts := 2, repeat_ := some (.immediately 5) }, 7)] ⟨0, 0⟩,
    .poll ⟨1, 1, 1⟩ {} ⟨0, 0⟩, .storeHandle 1 5, .finish 0 (.ok ()) ⟨9, 0⟩,
    .poll ⟨1, 1, 2⟩ {} ⟨10, 0⟩, .storeHandle 1 6, .finish 0 (.ok ()) ⟨11, 0⟩,
    .addBulk [("b", none, 8)] ⟨12, 0⟩,
    .poll ⟨1, 1, 3⟩ {} ⟨12, 0⟩, .storeHandle 2 7, .finish 0 (.error (.error "lost" none)) ⟨13, 0⟩]

/-- The repeated job is counted twice, so all jobs are reported as completed although the
other one has failed. -/
theorem repeatedRun_reports_completion :
    (run step (init none "mail" none 1 .new : Chronicle ℕ Unit Unit) repeatedRun).map
        (fun c => (c.system.queue.store.completed.values,
          c.system.queue.getMetrics.1.allJobsCompleted, c.added, c.outcome 1, c.outcome 2)) =
      some ([1, 1], true, [1, 2], some .success, some .failure) ∧
      ¬ Always step (fun c : Chronicle ℕ Unit Unit => c.Exact)
        (init none "mail" none 1 .new) repeatedRun := by
  constructor
  · decide +kernel
  · apply not_always_of_run fun c => decide (c.system.queue.getMetrics.1.allJobsCompleted = true ∧
      2 ∈ c.added ∧ c.outcome 2 = some .failure)
    · intro c hc hexact
      obtain ⟨hreport, hmem, hfailed⟩ := of_decide_eq_true hc
      have hsucceeded := (hexact.mp hreport).2.1 2 hmem
      rw [hfailed] at hsucceeded
      cases hsucceeded
    · decide +kernel

end Chronicle

end Kiomq
