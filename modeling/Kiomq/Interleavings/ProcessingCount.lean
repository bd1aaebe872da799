import Kiomq.Foundations.Parties
import Kiomq.Queue.SingleHolder
import Kiomq.Worker.FollowUp

/-!
# The processing counter

`main_loop` and the `process_job` tasks that it spawns, one operation at a time. The
loop raises the counter, enters the job in the map of jobs in progress, spawns the task
and only then stores the handle of the task in the entry. A task lowers the counter
only if it finds its entry and a handle in it. So the counter is balanced if no task
gets to its entry before the loop has been there.
-/

namespace Kiomq

open Foundations InMemoryStore

variable {D R P : Type}

/-! ### The machine -/

/-- The entry of a job in progress. The handle is kept in a cell that the loop and the
task still share after the entry has been removed. -/
structure InProgress (D R P : Type) where
  info : JobMeta D R P
  cell : ℕ

inductive LoopPc (D R P : Type)
  | between
  | fetched (job : Job D R P) (token : JobToken) (opts : WorkerOpts)
  | counted (job : Job D R P) (token : JobToken) (opts : WorkerOpts)
  | inserted (job : Job D R P) (token : JobToken)
  | spawned (id cell : ℕ)
  | found (cell : ℕ)

inductive TaskPc (D R P : Type)
  | running (job : Job D R P) (token : JobToken)
  | moved (id : ℕ) (worker : Uuid) (state : JobState) (after : Job D R P)
  | removed (id : ℕ) (worker : Uuid) (state : JobState) (after : Job D R P)
    (entry : InProgress D R P)
  | settled (id : ℕ) (worker : Uuid) (state : JobState) (cell : ℕ)
  | loaded (id : ℕ) (worker : Uuid) (state : JobState)
  | ended

/-- A worker on a queue. Task `k` and cell `k` belong to the `k`-th iteration, and
`handles` are the cells with a handle. -/
structure WorkerRun (D R P : Type) where
  queue : Queue D R P
  loop : LoopPc D R P
  jobsInProgress : OrderedMap ℕ (InProgress D R P)
  tasks : List (TaskPc D R P)
  handles : List ℕ

inductive WorkerAction (R : Type)
  | fetch (token : JobToken) (opts : WorkerOpts) (clock : Clock)
  | loop
  | task (k : ℕ) (returned : Except CaughtError R) (clock : Clock)

namespace WorkerRun

def start (q : Queue D R P) : WorkerRun D R P := ⟨q, .between, .empty, [], []⟩

def loopStep (σ : WorkerRun D R P) : Option (WorkerRun D R P) :=
  match σ.loop with
  | .between => none
  | .fetched job token opts =>
    let q := (σ.queue.updateProcessingCount true token.worker (job.id.getD 0) job.state).2
    some { σ with queue := q, loop := .counted job token opts }
  | .counted job token opts =>
    let entry : InProgress D R P := ⟨⟨job, token, none, opts⟩, σ.tasks.length⟩
    some { σ with
      jobsInProgress := σ.jobsInProgress.insert (job.id.getD 0) entry
      loop := .inserted job token }
  | .inserted job token =>
    some { σ with
      tasks := σ.tasks ++ [.running job token]
      loop := .spawned (job.id.getD 0) σ.tasks.length }
  | .spawned id _ =>
    match σ.jobsInProgress.get? id with
    | some entry => some { σ with loop := .found entry.cell }
    | none => some { σ with loop := .between }
  | .found cell => some { σ with handles := cell :: σ.handles, loop := .between }

/-- The next operation of a task. An error or a panic ends it. -/
def taskStep (σ : WorkerRun D R P) (returned : Except CaughtError R) (clock : Clock) :
    TaskPc D R P → Option (Queue D R P × OrderedMap ℕ (InProgress D R P) × TaskPc D R P)
  | .running job token =>
    match σ.queue.moveFinished job token returned clock with
    | (.error _, q) => some (q, σ.jobsInProgress, .ended)
    | (.ok (state, after), q) =>
      some (q, σ.jobsInProgress, .moved (job.id.getD 0) token.worker state after)
  | .moved id worker state after =>
    match σ.jobsInProgress.get? id with
    | some entry =>
      some (σ.queue, σ.jobsInProgress.remove id, .removed id worker state after entry)
    | none => some (σ.queue, σ.jobsInProgress, .ended)
  | .removed id worker state after entry =>
    match σ.queue.followUp id state after entry.info clock with
    | (.error _, q) => some (q, σ.jobsInProgress, .ended)
    | (.ok _, q) => some (q, σ.jobsInProgress, .settled id worker state entry.cell)
  | .settled id worker state cell =>
    if cell ∈ σ.handles then some (σ.queue, σ.jobsInProgress, .loaded id worker state)
    else some (σ.queue, σ.jobsInProgress, .ended)
  | .loaded id worker state =>
    some ((σ.queue.updateProcessingCount false worker id state).2, σ.jobsInProgress, .ended)
  | .ended => none

def step (σ : WorkerRun D R P) : WorkerAction R → Option (WorkerRun D R P)
  | .fetch token opts clock =>
    match σ.loop with
    | .between =>
      match σ.queue.getNextJob token false opts none clock with
      | (.ok (some job), q) =>
        some { σ with
          queue := q
          loop := if job.id.isSome then .fetched job token opts else .between }
      | (_, q) => some { σ with queue := q }
    | _ => none
  | .loop => σ.loopStep
  | .task k returned clock =>
    σ.tasks[k]?.bind fun t => (σ.taskStep returned clock t).map fun out =>
      { σ with queue := out.1, jobsInProgress := out.2.1, tasks := σ.tasks.set k out.2.2 }

end WorkerRun

def TaskPc.isEnded : TaskPc D R P → Bool
  | .ended => true
  | _ => false

def LoopPc.isBetween : LoopPc D R P → Bool
  | .between => true
  | _ => false

/-- While no task is running and the loop is between iterations the counter is 0. -/
def WorkerRun.Balanced (σ : WorkerRun D R P) : Prop :=
  σ.loop.isBetween = true → (∀ t ∈ σ.tasks, t.isEnded = true) → σ.queue.store.processing = 0

/-- No operation of a task fails; a task removes its entry only after the loop has looked
for it, and reads the handle only after the loop has stored it. -/
def WorkerRun.Timely (σ : WorkerRun D R P) : WorkerAction R → Prop
  | .fetch _ _ _ => True
  | .loop => True
  | .task k _ clock =>
    match σ.tasks[k]? with
    | some (.running job _) => job.getMetrics.isOk = true
    | some (.moved _ _ _ _) =>
      match σ.loop with
      | .spawned _ cell => cell ≠ k
      | _ => True
    | some (.removed _ _ state after entry) =>
      σ.queue.nextAttemptComputable state after entry.info clock = true
    | some (.settled _ _ _ cell) => cell ∈ σ.handles
    | _ => True

instance (σ : WorkerRun D R P) (a : WorkerAction R) : Decidable (σ.Timely a) := by
  cases a with
  | fetch | loop => exact isTrue trivial
  | task k returned clock =>
    unfold WorkerRun.Timely
    simp only
    split
    · infer_instance
    · split <;> infer_instance
    · infer_instance
    · infer_instance
    · infer_instance

/-! ### The jobs of a run -/

namespace WorkerRun

/-- The store side of the invariant: a job that the worker has, `held i` times, is on no
shelf and has a record. -/
structure Held (q : Queue D R P) (held : ℕ → ℕ) : Prop where
  unpaused : q.isPaused = false
  selfId : ∀ i r, q.store.recordView i = some r → r.selfId = some i
  single : ∀ i, q.store.shelved i + held i ≤ 1
  recorded : ∀ i, 0 < held i → ∃ r, q.store.recordView i = some r

theorem Held.congr {q : Queue D R P} {held held' : ℕ → ℕ} (h : Held q held)
    (heq : ∀ i, held' i = held i) : Held q held' := by
  obtain rfl : held' = held := funext heq
  exact h

theorem Held.agree {q : Queue D R P} {held : ℕ → ℕ} {t : InMemoryStore D R P} (h : Held q held)
    (ha : Agree q.store t) : Held { q with store := t } held where
  unpaused := ha.cached.trans h.unpaused
  selfId := by simpa only [ha.record] using h.selfId
  single := by simpa only [ha.shelved] using h.single
  recorded := by simpa only [ha.record] using h.recorded

theorem Held.updateProcessingCount {q : Queue D R P} {held : ℕ → ℕ} (h : Held q held) (b : Bool)
    (worker : Uuid) (id : ℕ) (state : JobState) :
    Held (q.updateProcessingCount b worker id state).2 held :=
  h.agree ((q.store.agree_incr_metaKey _ _).trans (agree_publishEvent _ _))

theorem Held.activated {q : Queue D R P} {held : ℕ → ℕ} {t : InMemoryStore D R P} {id : ℕ}
    (h : Held q held) (ha : Activated q.store t id) : Held { q with store := t } held where
  unpaused := ha.cached.trans h.unpaused
  selfId := by
    intro i r hr
    rw [ha.record] at hr
    by_cases hi : i = id
    · subst hi
      rw [Function.update_self] at hr
      obtain ⟨r', hr', rfl⟩ := Option.map_eq_some_iff.mp hr
      exact h.selfId i r' hr'
    · rw [Function.update_of_ne hi] at hr
      exact h.selfId i r hr
  single := by
    intro i
    have := ha.shelved i
    have := h.single i
    simp only
    omega
  recorded := by
    intro i hi
    obtain ⟨r, hr⟩ := h.recorded i hi
    rw [ha.record]
    by_cases heq : i = id
    · subst heq
      exact ⟨_, by rw [Function.update_self, hr, Option.map_some]⟩
    · exact ⟨r, by rwa [Function.update_of_ne heq]⟩

theorem Held.fetch {q : Queue D R P} {held : ℕ → ℕ} (h : Held q held) (token : JobToken)
    (opts : WorkerOpts) (clock : Clock) :
    Held (q.moveToActive token opts clock).2 held ∧
      ∀ job, (q.moveToActive token opts clock).1 = .ok (.processJob job) →
        ∃ id, job.id = some id ∧ Held (q.moveToActive token opts clock).2
          fun i => held i + if i = id then 1 else 0 := by
  rcases Queue.moveToActive_spec h.unpaused token opts clock with ⟨hq, hno⟩ | ⟨id, t, hq, ha, hjob⟩
  · rw [hq]
    exact ⟨h, fun job hjob => absurd hjob (hno job)⟩
  · rw [hq]
    have ht := h.activated ha
    refine ⟨ht, fun job hres => ⟨id, ?_, ht.unpaused, ht.selfId, ?_, ?_⟩⟩
    · have hview : t.recordView id = some job.view := by simp [recordView, hjob job hres]
      exact ht.selfId id job.view hview
    · intro i
      have := ha.shelved i
      have := h.single i
      simp only
      omega
    · intro i hi
      by_cases heq : i = id
      · exact ⟨job.view, by simp [heq, recordView, hjob job hres]⟩
      · exact ht.recorded i (by simpa [heq] using hi)

theorem Held.finished {q : Queue D R P} {held : ℕ → ℕ} {t : InMemoryStore D R P} {id : ℕ}
    {r r' : Job D R P} (h : Held q held) (hr : q.store.getJob id = some r)
    (hf : Finished q.store t id r r') : Held { q with store := t } held where
  unpaused := hf.cached.trans h.unpaused
  selfId := by
    intro i v hv
    rw [hf.record] at hv
    by_cases hi : i = id
    · subst hi
      rw [Function.update_self] at hv
      obtain rfl := Option.some.inj hv
      have hself : r.view.selfId = some i := h.selfId i r.view (by simp [recordView, hr])
      exact hf.selfId.trans hself
    · rw [Function.update_of_ne hi] at hv
      exact h.selfId i v hv
  single := fun i => (Nat.add_le_add_right (hf.shelved i) _).trans (h.single i)
  recorded := by
    intro i hi
    rw [hf.record]
    by_cases heq : i = id
    · exact ⟨r'.view, by rw [heq, Function.update_self]⟩
    · obtain ⟨v, hv⟩ := h.recorded i hi
      exact ⟨v, by rwa [Function.update_of_ne heq]⟩

theorem Held.move {q : Queue D R P} {held : ℕ → ℕ} (h : Held q held) {job : Job D R P}
    (hheld : 0 < held (job.id.getD 0)) (hmetrics : job.getMetrics.isOk = true) (token : JobToken)
    (returned : Except CaughtError R) (clock : Clock) :
    ∃ out q', q.moveFinished job token returned clock = (.ok out, q') ∧ Held q' held := by
  obtain ⟨v, hv⟩ := h.recorded _ hheld
  obtain ⟨r, hr, -⟩ := Option.map_eq_some_iff.mp hv
  cases hm : job.getMetrics with
  | error e => simp [hm, Except.isOk, Except.toBool] at hmetrics
  | ok metrics =>
    obtain ⟨t, r', heq, hfin⟩ := Queue.moveFinished_spec h.unpaused hm hr token returned clock
    exact ⟨_, _, heq, h.finished hr hfin⟩

theorem Held.follow {q : Queue D R P} {held held' : ℕ → ℕ} {id : ℕ} (h : Held q held)
    (hle : ∀ i, held' i + (if i = id then 1 else 0) ≤ held i) (state : JobState) (after : Job D R P)
    (entry : JobMeta D R P) (clock : Clock) :
    Held (q.followUp id state after entry clock).2 held' := by
  obtain ⟨t, ht, hf⟩ := q.followUp_spec id state after entry clock
  rw [ht]
  refine ⟨hf.cached.trans h.unpaused, ?_, ?_, ?_⟩
  · intro i r hr
    rcases hf.record i with heq | ⟨-, hnone⟩
    · exact h.selfId i r (heq ▸ hr)
    · rw [hnone] at hr
      simp at hr
  · intro i
    have := hf.shelved i
    have := h.single i
    have := hle i
    simp only
    omega
  · intro i hi
    have hlei := hle i
    rcases hf.record i with heq | ⟨rfl, -⟩
    · rw [heq]
      exact h.recorded i (by omega)
    · have := h.single i
      rw [if_pos rfl] at hlei
      omega

/-! ### The wiring of entries, tasks and handles -/

end WorkerRun

namespace TaskPc

/-- The id whose entry the task is going to remove. -/
def awaits : TaskPc D R P → Option ℕ
  | running job _ => some (job.id.getD 0)
  | moved id _ _ _ => some id
  | _ => none

/-- The id that the task has and has not followed up yet. -/
def holds : TaskPc D R P → Option ℕ
  | running job _ => some (job.id.getD 0)
  | moved id _ _ _ => some id
  | removed id _ _ _ _ => some id
  | _ => none

theorem holds_of_awaits {t : TaskPc D R P} {i : ℕ} (h : t.awaits = some i) : t.holds = some i := by
  cases t with
  | running | moved => exact h
  | _ => simp [awaits] at h

/-- The cell that the task is going to read. -/
def cell? : TaskPc D R P → Option ℕ
  | removed _ _ _ _ entry => some entry.cell
  | settled _ _ _ cell => some cell
  | _ => none

end TaskPc

namespace LoopPc

/-- The job that the loop has fetched and has not spawned a task for yet. -/
def holds : LoopPc D R P → Option ℕ
  | fetched job _ _ => some (job.id.getD 0)
  | counted job _ _ => some (job.id.getD 0)
  | inserted job _ => some (job.id.getD 0)
  | _ => none

/-- The counter has been raised for a task that is not spawned yet. -/
def isCounted : LoopPc D R P → Bool
  | counted _ _ _ => true
  | inserted _ _ => true
  | _ => false

/-- The loop is on its way to store the handle of the cell. -/
def serves (k : ℕ) : LoopPc D R P → Bool
  | spawned _ cell => decide (cell = k)
  | found cell => decide (cell = k)
  | _ => false

end LoopPc

namespace WorkerRun

/-- How often the worker has a job. -/
def inFlight (σ : WorkerRun D R P) (i : ℕ) : ℕ :=
  (if σ.loop.holds = some i then 1 else 0) + σ.tasks.countP fun t => t.holds = some i

/-- A task that has not removed its entry yet finds its own cell there, and the loop is
on its way to every cell of a live task that has no handle. -/
structure Wired (σ : WorkerRun D R P) : Prop where
  entry : ∀ (k : ℕ) (t : TaskPc D R P) (i : ℕ), σ.tasks[k]? = some t → t.awaits = some i →
    ∃ e, σ.jobsInProgress.get? i = some e ∧ e.cell = k
  cell : ∀ (k : ℕ) (t : TaskPc D R P) (c : ℕ), σ.tasks[k]? = some t → t.cell? = some c → c = k
  handle : ∀ (k : ℕ) (t : TaskPc D R P), σ.tasks[k]? = some t → t.isEnded = false →
    k ∈ σ.handles ∨ σ.loop.serves k = true
  inserted : ∀ job token, σ.loop = .inserted job token →
    ∃ e, σ.jobsInProgress.get? (job.id.getD 0) = some e ∧ e.cell = σ.tasks.length
  spawned : ∀ id k, σ.loop = .spawned id k → ∃ t, σ.tasks[k]? = some t ∧ t.awaits = some id

/-- The invariant of timely runs. -/
structure Inv (σ : WorkerRun D R P) : Prop where
  held : Held σ.queue σ.inFlight
  wired : σ.Wired
  counter : σ.queue.store.processing = (if σ.loop.isCounted then 1 else 0) +
    σ.tasks.countP fun t => !t.isEnded

theorem Inv.balanced {σ : WorkerRun D R P} (h : σ.Inv) : σ.Balanced := by
  intro hloop htasks
  have hcount : σ.tasks.countP (fun t => !t.isEnded) = 0 := by
    apply countP_eq_zero_of_forall
    intro t ht
    simp [htasks t ht]
  have hidle : σ.loop.isCounted = false := by
    cases hl : σ.loop with
    | between => rfl
    | _ => simp [hl, LoopPc.isBetween] at hloop
  rw [h.counter, hcount, hidle]
  rfl

/-! ### Steps of the wiring -/

variable {σ : WorkerRun D R P}

theorem Wired.prepare (h : σ.Wired) {pc : LoopPc D R P} {q : Queue D R P}
    (hidle : ∀ k, σ.loop.serves k = false) (hins : ∀ job token, pc ≠ .inserted job token)
    (hsp : ∀ id k, pc ≠ .spawned id k) : Wired { σ with queue := q, loop := pc } where
  entry := h.entry
  cell := h.cell
  handle := by
    intro k t hk ht
    left
    simpa [hidle k] using h.handle k t hk ht
  inserted := fun job token hpc => absurd hpc (hins job token)
  spawned := fun id k hpc => absurd hpc (hsp id k)

theorem Wired.insert (h : σ.Wired) {job : Job D R P} {token : JobToken} {opts : WorkerOpts}
    (hloop : σ.loop = .counted job token opts)
    (hfree : ∀ (k : ℕ) (t : TaskPc D R P), σ.tasks[k]? = some t →
      t.awaits ≠ some (job.id.getD 0))
    (info : JobMeta D R P) :
    Wired { σ with
      jobsInProgress := σ.jobsInProgress.insert (job.id.getD 0) ⟨info, σ.tasks.length⟩
      loop := .inserted job token } where
  entry := by
    intro k t i hk hi
    have hne : i ≠ job.id.getD 0 := by
      rintro rfl
      exact hfree k t hk hi
    simpa only [OrderedMap.get?_insert, if_neg hne] using h.entry k t i hk hi
  cell := h.cell
  handle := by
    intro k t hk ht
    left
    simpa [hloop, LoopPc.serves] using h.handle k t hk ht
  inserted := by
    intro job' token' hpc
    obtain ⟨rfl, rfl⟩ := LoopPc.inserted.inj hpc
    exact ⟨_, by rw [OrderedMap.get?_insert, if_pos rfl], rfl⟩
  spawned := fun id k hpc => nomatch hpc

theorem Wired.spawn (h : σ.Wired) {job : Job D R P} {token : JobToken}
    (hloop : σ.loop = .inserted job token) :
    Wired { σ with
      tasks := σ.tasks ++ [.running job token]
      loop := .spawned (job.id.getD 0) σ.tasks.length } := by
  have hcases : ∀ (k : ℕ) (t : TaskPc D R P),
      (σ.tasks ++ [.running job token])[k]? = some t →
      σ.tasks[k]? = some t ∨ (k = σ.tasks.length ∧ t = .running job token) := by
    intro k t hk
    rcases Nat.lt_or_ge k σ.tasks.length with hlt | hge
    · exact Or.inl (by rwa [List.getElem?_append_left hlt] at hk)
    · rw [List.getElem?_append_right hge, List.getElem?_singleton] at hk
      split_ifs at hk with hz
      exact Or.inr ⟨by omega, (Option.some.inj hk).symm⟩
  constructor
  · intro k t i hk hi
    rcases hcases k t hk with hk | ⟨rfl, rfl⟩
    · exact h.entry k t i hk hi
    · obtain rfl := Option.some.inj hi
      exact h.inserted job token hloop
  · intro k t c hk hc
    rcases hcases k t hk with hk | ⟨rfl, rfl⟩
    · exact h.cell k t c hk hc
    · simp [TaskPc.cell?] at hc
  · intro k t hk ht
    rcases hcases k t hk with hk | ⟨rfl, rfl⟩
    · left
      simpa [hloop, LoopPc.serves] using h.handle k t hk ht
    · exact Or.inr (by simp [LoopPc.serves])
  · exact fun job token hpc => nomatch hpc
  · intro id k hpc
    obtain ⟨rfl, rfl⟩ := LoopPc.spawned.inj hpc
    exact ⟨.running job token, by simp, rfl⟩

theorem Wired.look (h : σ.Wired) {id k : ℕ} (hloop : σ.loop = .spawned id k) :
    ∃ e, σ.jobsInProgress.get? id = some e ∧ Wired { σ with loop := .found e.cell } := by
  obtain ⟨t, hk, ht⟩ := h.spawned id k hloop
  obtain ⟨e, he, hcell⟩ := h.entry k t id hk ht
  refine ⟨e, he, h.entry, h.cell, ?_, (fun _ _ hpc => nomatch hpc), fun _ _ hpc => nomatch hpc⟩
  intro j u hj hu
  have := h.handle j u hj hu
  simpa [hloop, LoopPc.serves, hcell] using this

theorem Wired.store (h : σ.Wired) {c : ℕ} (hloop : σ.loop = .found c) :
    Wired { σ with handles := c :: σ.handles, loop := .between } where
  entry := h.entry
  cell := h.cell
  handle := by
    intro k t hk ht
    left
    rcases h.handle k t hk ht with hmem | hserve
    · exact List.mem_cons_of_mem _ hmem
    · have hc : c = k := by simpa [hloop, LoopPc.serves] using hserve
      exact hc ▸ List.mem_cons_self
  inserted := fun job token hpc => nomatch hpc
  spawned := fun id k hpc => nomatch hpc

theorem Wired.task (h : σ.Wired) {k : ℕ} {t : TaskPc D R P} (hk : σ.tasks[k]? = some t)
    (t' : TaskPc D R P) (haw : t'.awaits = t.awaits)
    (hcell : ∀ c, t'.cell? = some c → t.cell? = some c)
    (hend : t'.isEnded = false → t.isEnded = false) (q : Queue D R P) :
    Wired { σ with queue := q, tasks := σ.tasks.set k t' } where
  entry := by
    intro j u i hj hi
    rcases getElem?_set_cases hj with ⟨rfl, rfl⟩ | ⟨-, hj⟩
    · exact h.entry j t i hk (haw ▸ hi)
    · exact h.entry j u i hj hi
  cell := by
    intro j u c hj hc
    rcases getElem?_set_cases hj with ⟨rfl, rfl⟩ | ⟨-, hj⟩
    · exact h.cell j t c hk (hcell c hc)
    · exact h.cell j u c hj hc
  handle := by
    intro j u hj hu
    rcases getElem?_set_cases hj with ⟨rfl, rfl⟩ | ⟨-, hj⟩
    · exact h.handle j t hk (hend hu)
    · exact h.handle j u hj hu
  inserted := by simpa only [List.length_set] using h.inserted
  spawned := by
    intro id j hloop
    obtain ⟨u, hj, hu⟩ := h.spawned id j hloop
    by_cases hjk : j = k
    · subst hjk
      obtain rfl := Option.some.inj (hk.symm.trans hj)
      exact ⟨t', by simp [List.getElem?_set_self', hk], haw.trans hu⟩
    · exact ⟨u, by simpa only [List.getElem?_set_ne (Ne.symm hjk)] using hj, hu⟩

theorem Wired.remove (h : σ.Wired) {k id : ℕ} {worker : Uuid} {state : JobState}
    {after : Job D R P} (hk : σ.tasks[k]? = some (.moved id worker state after))
    (htime : ∀ i, σ.loop ≠ .spawned i k) (hloop : σ.loop.holds ≠ some id)
    (hother : ∀ (j : ℕ) (u : TaskPc D R P), j ≠ k → σ.tasks[j]? = some u → u.awaits ≠ some id) :
    ∃ e, σ.jobsInProgress.get? id = some e ∧ Wired { σ with
      jobsInProgress := σ.jobsInProgress.remove id
      tasks := σ.tasks.set k (.removed id worker state after e) } := by
  obtain ⟨e, he, hcell⟩ := h.entry k _ id hk rfl
  refine ⟨e, he, ?_, ?_, ?_, ?_, ?_⟩
  · intro j u i hj hi
    rcases getElem?_set_cases hj with ⟨rfl, rfl⟩ | ⟨hjk, hu⟩
    · simp [TaskPc.awaits] at hi
    · have hne : i ≠ id := by
        rintro rfl
        exact hother j u hjk hu hi
      simpa only [OrderedMap.get?_remove, if_neg hne] using h.entry j u i hu hi
  · intro j u c hj hc
    rcases getElem?_set_cases hj with ⟨rfl, rfl⟩ | ⟨-, hj⟩
    · obtain rfl := Option.some.inj hc
      exact hcell
    · exact h.cell j u c hj hc
  · intro j u hj hu
    rcases getElem?_set_cases hj with ⟨rfl, rfl⟩ | ⟨-, hj⟩
    · exact h.handle j _ hk rfl
    · exact h.handle j u hj hu
  · intro job token hpc
    have hne : job.id.getD 0 ≠ id := by
      rintro rfl
      exact hloop (by simp only at hpc; rw [hpc]; rfl)
    simpa only [OrderedMap.get?_remove, if_neg hne, List.length_set] using h.inserted job token hpc
  · intro i j hpc
    obtain ⟨u, hj, hu⟩ := h.spawned i j hpc
    have hjk : j ≠ k := by
      rintro rfl
      exact htime i hpc
    exact ⟨u, by simpa only [List.getElem?_set_ne (Ne.symm hjk)] using hj, hu⟩

/-! ### Steps of a run -/

/-- A job that the worker has is with one party only. -/
theorem Inv.holds_unique (h : σ.Inv) {k id : ℕ} {t : TaskPc D R P} (hk : σ.tasks[k]? = some t)
    (ht : t.holds = some id) :
    σ.loop.holds ≠ some id ∧ ∀ (j : ℕ) (u : TaskPc D R P), j ≠ k → σ.tasks[j]? = some u →
      u.holds ≠ some id := by
  have hone := h.held.single id
  have hpos : 0 < σ.tasks.countP fun t => t.holds = some id :=
    countP_pos_of_getElem? hk (by simpa using ht)
  unfold inFlight at hone
  constructor
  · intro hloop
    rw [if_pos hloop] at hone
    omega
  · intro j u hjk hj hu
    have htwo : 2 ≤ σ.tasks.countP fun t => t.holds = some id :=
      two_le_countP hjk hj hk (by simpa using hu) (by simpa using ht)
    omega

theorem fetch_inv {τ : WorkerRun D R P} (h : σ.Inv) (token : JobToken) (opts : WorkerOpts)
    (clock : Clock) (hstep : σ.step (R := R) (.fetch token opts clock) = some τ) : τ.Inv := by
  obtain ⟨q, loop, jobs, tasks, handles⟩ := σ
  cases loop with
  | between =>
    obtain ⟨hheld, hjob⟩ := h.held.fetch token opts clock
    have hproc := (q.sameFlags_moveToActive token opts clock).processing
    have hcounter := h.counter
    cases hm : q.moveToActive token opts clock with
    | mk res q' =>
      simp only [hm] at hheld hjob hproc
      have hnone : (⟨q', .between, jobs, tasks, handles⟩ : WorkerRun D R P).Inv :=
        ⟨hheld, h.wired.prepare (fun _ => rfl) (fun _ _ hpc => nomatch hpc)
          (fun _ _ hpc => nomatch hpc), hproc.trans hcounter⟩
      simp only [step, Queue.getNextJob, Bool.false_eq_true, if_false, hm] at hstep
      cases res with
      | error e =>
        obtain rfl := Option.some.inj hstep
        exact hnone
      | ok r =>
        cases r with
        | processJob job =>
          obtain ⟨id, hid, hheld'⟩ := hjob job rfl
          simp only [hid, Option.isSome_some, if_true] at hstep
          obtain rfl := Option.some.inj hstep
          refine ⟨hheld'.congr fun i => ?_, h.wired.prepare (fun _ => rfl)
            (fun _ _ hpc => nomatch hpc) (fun _ _ hpc => nomatch hpc), hproc.trans hcounter⟩
          simp only [inFlight, LoopPc.holds, hid, Option.getD_some, Option.some.injEq,
            eq_comm (a := id), reduceCtorEq, if_false]
          omega
        | _ =>
          obtain rfl := Option.some.inj hstep
          exact hnone
  | _ => simp [step] at hstep

theorem loopStep_inv {τ : WorkerRun D R P} (h : σ.Inv) (hstep : σ.loopStep = some τ) : τ.Inv := by
  obtain ⟨q, loop, jobs, tasks, handles⟩ := σ
  have hcounter := h.counter
  cases loop with
  | between => simp [loopStep] at hstep
  | fetched job token opts =>
    obtain rfl := Option.some.inj hstep
    refine ⟨h.held.updateProcessingCount true _ _ _, h.wired.prepare (fun _ => rfl)
      (fun _ _ hpc => nomatch hpc) (fun _ _ hpc => nomatch hpc), ?_⟩
    rw [Queue.processing_raise, hcounter]
    simp only [LoopPc.isCounted, if_true, Bool.false_eq_true, if_false]
    omega
  | counted job token opts =>
    obtain rfl := Option.some.inj hstep
    refine ⟨h.held, h.wired.insert rfl (fun k t hk hi => ?_) _, hcounter⟩
    exact (h.holds_unique hk (TaskPc.holds_of_awaits hi)).1 rfl
  | inserted job token =>
    obtain rfl := Option.some.inj hstep
    refine ⟨h.held.congr fun i => ?_, h.wired.spawn rfl, ?_⟩
    · simp only [inFlight, List.countP_append, List.countP_singleton]
      by_cases hi : job.id.getD 0 = i
      · simp [LoopPc.holds, TaskPc.holds, hi, Nat.add_comm]
      · simp [LoopPc.holds, TaskPc.holds, hi]
    · simp only [LoopPc.isCounted, if_true, Bool.false_eq_true, if_false, List.countP_append,
        List.countP_singleton, TaskPc.isEnded, Bool.not_false] at hcounter ⊢
      omega
  | spawned id k =>
    obtain ⟨e, he, hwired⟩ := h.wired.look rfl
    simp only [loopStep, he] at hstep
    obtain rfl := Option.some.inj hstep
    exact ⟨h.held, hwired, hcounter⟩
  | found c =>
    obtain rfl := Option.some.inj hstep
    exact ⟨h.held, h.wired.store rfl, hcounter⟩

theorem countP_alive_set {k : ℕ} {t : TaskPc D R P} (hk : σ.tasks[k]? = some t)
    (t' : TaskPc D R P) (ht : t'.isEnded = t.isEnded) :
    (σ.tasks.set k t').countP (fun t => !t.isEnded) = σ.tasks.countP fun t => !t.isEnded :=
  countP_set_eq hk (by rw [ht])

theorem inFlight_set {k : ℕ} {t : TaskPc D R P} (hk : σ.tasks[k]? = some t)
    (t' : TaskPc D R P) (ht : t'.holds = t.holds) (q : Queue D R P)
    (jobs : OrderedMap ℕ (InProgress D R P)) (i : ℕ) :
    inFlight { σ with queue := q, jobsInProgress := jobs, tasks := σ.tasks.set k t' } i =
      σ.inFlight i := by
  unfold inFlight
  congr 1
  exact countP_set_eq hk (by rw [ht])

theorem Inv.moved (h : σ.Inv) {k : ℕ} {job : Job D R P} {token : JobToken}
    (hk : σ.tasks[k]? = some (.running job token)) (hmetrics : job.getMetrics.isOk = true)
    (returned : Except CaughtError R) (clock : Clock) :
    ∃ state after q, σ.queue.moveFinished job token returned clock = (.ok (state, after), q) ∧
      Inv { σ with
        queue := q
        tasks := σ.tasks.set k (.moved (job.id.getD 0) token.worker state after) } := by
  have hpos : 0 < σ.inFlight (job.id.getD 0) := by
    have : 0 < σ.tasks.countP fun t => t.holds = some (job.id.getD 0) :=
      countP_pos_of_getElem? hk (by simp [TaskPc.holds])
    unfold inFlight
    omega
  obtain ⟨⟨state, after⟩, q, hmove, hheld⟩ := h.held.move hpos hmetrics token returned clock
  have hproc := (σ.queue.sameFlags_moveFinished job token returned clock).processing
  rw [hmove] at hproc
  let next : TaskPc D R P := .moved (job.id.getD 0) token.worker state after
  refine ⟨state, after, q, hmove, hheld.congr (inFlight_set hk next rfl _ _),
    h.wired.task hk next rfl (fun c hc => by simp [next, TaskPc.cell?] at hc) (fun _ => rfl) _, ?_⟩
  rw [countP_alive_set hk next rfl]
  exact hproc.trans h.counter

theorem Inv.removed (h : σ.Inv) {k id : ℕ} {worker : Uuid} {state : JobState} {after : Job D R P}
    (hk : σ.tasks[k]? = some (.moved id worker state after))
    (htime : ∀ i, σ.loop ≠ .spawned i k) :
    ∃ e, σ.jobsInProgress.get? id = some e ∧ Inv { σ with
      jobsInProgress := σ.jobsInProgress.remove id
      tasks := σ.tasks.set k (.removed id worker state after e) } := by
  obtain ⟨hloop, hother⟩ := h.holds_unique hk rfl
  obtain ⟨e, he, hwired⟩ := h.wired.remove hk htime hloop
    (fun j u hjk hj hu => hother j u hjk hj (TaskPc.holds_of_awaits hu))
  refine ⟨e, he, h.held.congr (inFlight_set hk (.removed id worker state after e) rfl _ _),
    hwired, ?_⟩
  rw [countP_alive_set hk (.removed id worker state after e) rfl]
  exact h.counter

theorem Inv.settled (h : σ.Inv) {k id : ℕ} {worker : Uuid} {state : JobState}
    {after : Job D R P} {entry : InProgress D R P}
    (hk : σ.tasks[k]? = some (.removed id worker state after entry)) (clock : Clock) :
    Inv { σ with
      queue := (σ.queue.followUp id state after entry.info clock).2
      tasks := σ.tasks.set k (.settled id worker state entry.cell) } := by
  have hle : ∀ i, inFlight { σ with
      queue := (σ.queue.followUp id state after entry.info clock).2
      tasks := σ.tasks.set k (.settled id worker state entry.cell) } i +
      (if i = id then 1 else 0) ≤ σ.inFlight i := by
    intro i
    unfold inFlight
    have := countP_set_add_le (q := i = id) (p := fun t : TaskPc D R P => t.holds = some i)
      (b := .settled id worker state entry.cell) hk
      (by rintro rfl; simp [TaskPc.holds]) (by simp [TaskPc.holds])
    simp only
    omega
  have hproc : (σ.queue.followUp id state after entry.info clock).2.store.processing =
      σ.queue.store.processing := by
    obtain ⟨t, ht, hf⟩ := σ.queue.followUp_spec id state after entry.info clock
    rw [ht]
    exact hf.flags.processing
  refine ⟨h.held.follow hle state after entry.info clock,
    h.wired.task hk (.settled id worker state entry.cell) rfl (fun c hc => hc) (fun _ => rfl) _,
    ?_⟩
  rw [countP_alive_set hk (.settled id worker state entry.cell) rfl]
  exact hproc.trans h.counter

theorem Inv.loaded (h : σ.Inv) {k id cell : ℕ} {worker : Uuid} {state : JobState}
    (hk : σ.tasks[k]? = some (.settled id worker state cell)) :
    Inv { σ with tasks := σ.tasks.set k (.loaded id worker state) } := by
  refine ⟨h.held.congr (inFlight_set hk (.loaded id worker state) rfl _ _),
    h.wired.task hk (.loaded id worker state) rfl (fun c hc => by simp [TaskPc.cell?] at hc)
      (fun _ => rfl) _, ?_⟩
  rw [countP_alive_set hk (.loaded id worker state) rfl]
  exact h.counter

theorem Inv.ended (h : σ.Inv) {k id : ℕ} {worker : Uuid} {state : JobState}
    (hk : σ.tasks[k]? = some (.loaded id worker state)) :
    Inv { σ with
      queue := (σ.queue.updateProcessingCount false worker id state).2
      tasks := σ.tasks.set k .ended } := by
  refine ⟨(h.held.updateProcessingCount false _ _ _).congr (inFlight_set hk .ended rfl _ _),
    h.wired.task hk .ended rfl (fun c hc => by simp [TaskPc.cell?] at hc)
      (fun hend => by simp [TaskPc.isEnded] at hend) _, ?_⟩
  have hleave : (σ.tasks.countP fun t => !t.isEnded) =
      ((σ.tasks.set k .ended).countP fun t => !t.isEnded) + 1 :=
    countP_set_leave hk rfl rfl
  apply Queue.processing_lower
  rw [h.counter, hleave]
  exact (Nat.add_assoc _ _ _).symm

theorem task_inv {τ : WorkerRun D R P} (h : σ.Inv) (k : ℕ) (returned : Except CaughtError R)
    (clock : Clock) (htime : σ.Timely (.task k returned clock))
    (hstep : σ.step (.task k returned clock) = some τ) : τ.Inv := by
  obtain ⟨t, hk, hstep⟩ := Option.bind_eq_some_iff.mp hstep
  obtain ⟨out, hout, rfl⟩ := Option.map_eq_some_iff.mp hstep
  simp only [Timely, hk] at htime
  cases t with
  | running job token =>
    obtain ⟨state, after, q, hmove, hinv⟩ := h.moved hk htime returned clock
    simp only [taskStep, hmove] at hout
    obtain rfl := Option.some.inj hout
    exact hinv
  | moved id worker state after =>
    obtain ⟨e, he, hinv⟩ := h.removed hk fun i hi => by simp [hi] at htime
    simp only [taskStep, he] at hout
    obtain rfl := Option.some.inj hout
    exact hinv
  | removed id worker state after entry =>
    have hok : σ.queue.nextAttemptComputable state after entry.info clock = true := htime
    have hinv := h.settled hk clock
    rw [← Queue.isOk_followUp _ id] at hok
    cases hf : σ.queue.followUp id state after entry.info clock with
    | mk res q =>
      rw [hf] at hok hinv
      cases res with
      | error e => simp [Except.isOk, Except.toBool] at hok
      | ok u =>
        simp only [taskStep, hf] at hout
        obtain rfl := Option.some.inj hout
        exact hinv
  | settled id worker state cell =>
    have hmem : cell ∈ σ.handles := htime
    simp only [taskStep, if_pos hmem] at hout
    obtain rfl := Option.some.inj hout
    exact h.loaded hk
  | loaded id worker state =>
    obtain rfl := Option.some.inj hout
    exact h.ended hk
  | ended => simp [taskStep] at hout

/-- The states that a worker may start from: no job is in processing, no id lies on two
shelves, and records know their id. -/
structure Ready (q : Queue D R P) : Prop where
  unpaused : q.isPaused = false
  selfId : ∀ i job, q.store.getJob i = some job → job.id = some i
  single : ∀ i, q.store.shelved i ≤ 1
  idle : q.store.processing = 0

theorem ready_of_inv {w : System D R P} {transit : List ℕ} (h : System.Inv w transit)
    (hidle : w.queue.store.processing = 0) : Ready w.queue where
  unpaused := h.unpaused
  selfId i job hjob := h.places.selfId i job.view (by simp [System.custody, recordView, hjob])
  single i := by
    have htotal : w.queue.store.shelved i + w.queue.store.activeCount i + _ ≤ 1 :=
      h.places.total_le_one i
    omega
  idle := hidle

/-- The counter is balanced in every run of a worker in which tasks are not ahead of the
loop. -/
theorem balanced_of_timely (q : Queue D R P) (hq : Ready q) (as : List (WorkerAction R))
    (h : Guarded step Timely (start q) as) : Always step Balanced (start q) as := by
  have hinv : (start q).Inv := by
    refine ⟨⟨hq.unpaused, ?_, ?_, ?_⟩, ⟨?_, ?_, ?_, ?_, ?_⟩, hq.idle⟩
    · intro i r hr
      obtain ⟨job, hjob, rfl⟩ := Option.map_eq_some_iff.mp hr
      exact hq.selfId i job hjob
    · simpa [inFlight, start, LoopPc.holds] using hq.single
    all_goals simp [start, inFlight, LoopPc.holds]
  refine always_of_invariant ?_ (fun _ h => h.balanced) hinv h
  intro σ a τ hσ htime hstep
  cases a with
  | fetch token opts clock => exact fetch_inv hσ token opts clock hstep
  | loop => exact loopStep_inv hσ hstep
  | task k returned clock => exact task_inv hσ k returned clock htime hstep

def twoJobs : Queue Unit Unit Unit :=
  ((System.init none "mail" none 7 .new : System Unit Unit Unit).queue.bulkAdd
    [("a", none, ()), ("b", none, ())] ⟨0, 0⟩).2

theorem twoJobs_ready : Ready twoJobs :=
  ready_of_inv (System.addBulk_tracks (System.init_inv none "mail" none 7 .new)
    [("a", none, ()), ("b", none, ())] _ _ ⟨0, 0⟩).inv (by decide +kernel)

/-- A task that is spawned while the loop goes on, and one that fails later. -/
def orderlyRun : List (WorkerAction Unit) :=
  let task (k : ℕ) (returned : Except CaughtError Unit) : WorkerAction Unit :=
    .task k returned ⟨5, 0⟩
  let fetch : WorkerAction Unit := .fetch ⟨0, 0, 0⟩ {} ⟨5, 0⟩
  [fetch, .loop, .loop, .loop, task 0 (.ok ()), .loop, task 0 (.ok ()), task 0 (.ok ()), .loop,
    fetch, task 0 (.ok ()), .loop, .loop, .loop, .loop, task 0 (.ok ()), .loop] ++
    List.replicate 5 (task 1 (.error (.joinError "cancelled")))

theorem orderlyRun_balanced :
    (run step (start twoJobs) orderlyRun).map (fun σ =>
        (σ.loop.isBetween, σ.tasks.map TaskPc.isEnded, σ.queue.store.processing)) =
        some (true, [true, true], 0) ∧
      Guarded step Timely (start twoJobs) orderlyRun ∧
      Always step Balanced (start twoJobs) orderlyRun :=
  ⟨by decide +kernel, by decide +kernel,
    balanced_of_timely twoJobs twoJobs_ready orderlyRun (by decide +kernel)⟩

/-- A short job: its task ends between the spawn and the look of the loop. -/
def hastyTask : List (WorkerAction Unit) :=
  [.fetch ⟨0, 0, 0⟩ {} ⟨5, 0⟩, .loop, .loop, .loop] ++
    List.replicate 4 (.task 0 (.ok ()) ⟨5, 0⟩) ++ [.loop]

/-- The loop finds no entry to store the handle in; the task had found no handle, and the
counter stays at 1. -/
theorem hastyTask_leaks :
    (run step (start twoJobs) hastyTask).map (fun σ =>
        (σ.loop.isBetween, σ.tasks.map TaskPc.isEnded, σ.queue.store.processing)) =
        some (true, [true], 1) ∧
      ¬ Always step Balanced (start twoJobs) hastyTask := by
  refine ⟨by decide +kernel, not_always_of_run (fun σ => σ.loop.isBetween &&
    σ.tasks.all TaskPc.isEnded && decide (σ.queue.store.processing ≠ 0)) (fun σ hσ hbal => ?_)
    (by decide +kernel)⟩
  simp only [Bool.and_eq_true, List.all_eq_true, decide_eq_true_eq] at hσ
  exact hσ.2 (hbal hσ.1.1 hσ.1.2)

end WorkerRun

end Kiomq
