import Kiomq.Queue.Generic
import Kiomq.Queue.System
import Kiomq.Queue.Transitions

/-!
# The workers of a queue over any store

Workers poll the queue, keep the jobs in progress in a map of the process, and finish their
tasks. The store is the only part that they reach through an interface. On the in-memory
store this is the part of `System` that the workers perform. If one store simulates another,
every run of the workers on the one is a run on the other, with the same tasks and the same
jobs in progress.
-/

namespace Kiomq

open Foundations

variable {D R P σ τ : Type}

structure Fleet (D R P σ : Type) where
  store : σ
  jobsInProgress : OrderedMap ℕ (JobMeta D R P)
  tasks : List (Task D R P)

namespace Fleet

section Steps

variable (g : GenericQueue) (impl : Clock → Implementation (storeInterface D R P) σ)

/-- A fetched job is counted, entered and spawned. A worker that cannot count it stops. -/
def dispatch (f : Fleet D R P σ) (job : Job D R P) (token : JobToken) (opts : WorkerOpts)
    (clock : Clock) : Fleet D R P σ :=
  match job.id with
  | none => f
  | some id =>
    match (g.updateProcessingCount true token.worker id job.state).exec (impl clock) f.store with
    | (.error _, store) => { f with store }
    | (.ok _, store) =>
      { store
        jobsInProgress := f.jobsInProgress.insert id ⟨job, token, none, opts⟩
        tasks := f.tasks ++ [⟨job, token⟩] }

def poll (f : Fleet D R P σ) (token : JobToken) (opts : WorkerOpts) (clock : Clock) :
    Fleet D R P σ :=
  match (g.moveToActive token opts clock).exec (impl clock) f.store with
  | (.ok (.processJob job), store) =>
    { f with store }.dispatch g impl job token opts clock
  | (_, store) => { f with store }

/-- The end of a task. The entry of the job is taken out of the map once the outcome is
recorded. -/
def finish (f : Fleet D R P σ) (task : Task D R P) (returned : Except CaughtError R)
    (clock : Clock) : Fleet D R P σ :=
  match (g.moveFinished task.job task.token returned clock).exec (impl clock) f.store with
  | (.error _, store) => { f with store }
  | (.ok done, store) =>
    let entry := f.jobsInProgress.get? task.jobId
    let out := (g.settleFinished task.jobId task.token.worker entry clock done).exec (impl clock)
      store
    { f with store := out.2, jobsInProgress := f.jobsInProgress.remove task.jobId }

def step (f : Fleet D R P σ) : Action D R → Option (Fleet D R P σ)
  | .poll token opts clock => some (f.poll g impl token opts clock)
  | .storeHandle jobId handle =>
    some { f with
      jobsInProgress := f.jobsInProgress.modify jobId fun e => { e with handle := some handle } }
  | .finish i returned clock =>
    f.tasks[i]?.map fun task =>
      { f.finish g impl task returned clock with tasks := f.tasks.eraseIdx i }
  | _ => none

end Steps

section Keeping

variable {g : GenericQueue} {impl : Clock → Implementation (storeInterface D R P) σ} {γ : Type*}
  (view : σ → γ) (hview : ∀ clock c s, view (impl clock c s).2 = view s)

include hview

end Keeping

/-! ### In memory -/

def ofSystem (w : System D R P) : Fleet D R P (InMemoryStore D R P) :=
  ⟨w.queue.store, w.queue.jobsInProgress, w.tasks⟩

section InMemory

variable {g : GenericQueue} {w : System D R P}

end InMemory

/-! ### Two stores -/

def instant? : Action D R → Option ℕ
  | .poll _ _ clock | .finish _ _ clock => some clock.instant
  | _ => none

/-- The time of an action, if `now` is that of the last one before. -/
def timeAfter (now : ℕ) (a : Action D R) : ℕ := (instant? a).getD now

/-- Time does not run backwards. -/
def Chronological : ℕ → List (Action D R) → Prop
  | _, [] => True
  | now, a :: as => now ≤ timeAfter now a ∧ Chronological (timeAfter now a) as

instance decidableChronological : ∀ (now : ℕ) (as : List (Action D R)),
    Decidable (Chronological now as)
  | _, [] => inferInstanceAs (Decidable True)
  | now, a :: as =>
    have := decidableChronological (timeAfter now a) as
    inferInstanceAs (Decidable (now ≤ timeAfter now a ∧ Chronological (timeAfter now a) as))

def AdmittedStep (g : GenericQueue) (impl : Clock → Implementation (storeInterface D R P) σ)
    (admits : Clock → σ → StoreCall R P → Prop) (f : Fleet D R P σ) : Action D R → Prop
  | .poll token opts clock =>
    (g.moveToActive token opts clock).Admitted (impl clock) (admits clock) f.store ∧
      ∀ job store, (g.moveToActive token opts clock).exec (impl clock) f.store =
        (.ok (.processJob job), store) → ∀ id ∈ job.id,
          (g.updateProcessingCount true token.worker id job.state : StoreM D R P ℕ).Admitted
            (impl clock) (admits clock) store
  | .finish i returned clock =>
    ∀ task ∈ f.tasks[i]?,
      (g.moveFinished task.job task.token returned clock).Admitted (impl clock) (admits clock)
        f.store ∧
      ∀ done store, (g.moveFinished task.job task.token returned clock).exec (impl clock) f.store =
        (.ok done, store) →
          (g.settleFinished task.jobId task.token.worker (f.jobsInProgress.get? task.jobId) clock
            done).Admitted (impl clock) (admits clock) store
  | _ => True

structure Matches (rel : σ → τ → Prop) (f : Fleet D R P σ) (f' : Fleet D R P τ) : Prop where
  store : rel f.store f'.store
  jobsInProgress : f'.jobsInProgress = f.jobsInProgress
  tasks : f'.tasks = f.tasks

section Simulation

variable {g : GenericQueue} {impl : Clock → Implementation (storeInterface D R P) σ}
  {impl' : Clock → Implementation (storeInterface D R P) τ}
  {admits : Clock → σ → StoreCall R P → Prop} {rel : σ → τ → Prop}
  {f : Fleet D R P σ} {f' : Fleet D R P τ} {clock : Clock}

theorem Matches.dispatch
    (hsim : Simulates (impl clock) (impl' clock) (admits clock) rel) (h : Matches rel f f')
    (job : Job D R P) (token : JobToken) (opts : WorkerOpts)
    (hadmits : ∀ id ∈ job.id,
      (g.updateProcessingCount true token.worker id job.state : StoreM D R P ℕ).Admitted
        (impl clock) (admits clock) f.store) :
    Matches rel (f.dispatch g impl job token opts clock)
      (f'.dispatch g impl' job token opts clock) := by
  unfold Fleet.dispatch
  cases hid : job.id with
  | none => exact h
  | some id =>
    obtain ⟨hresult, hnext⟩ := hsim.exec_procedure _ h.store (hadmits id hid)
    dsimp only
    generalize Procedure.exec (impl clock) _ f.store = out at hresult hnext ⊢
    generalize Procedure.exec (impl' clock) _ f'.store = out' at hresult hnext ⊢
    obtain ⟨result, store⟩ := out
    obtain ⟨result', store'⟩ := out'
    obtain rfl : result' = result := hresult
    cases result' with
    | error e => exact ⟨hnext, h.jobsInProgress, h.tasks⟩
    | ok n =>
      refine ⟨hnext, ?_, ?_⟩
      · exact congrArg (fun m => m.insert id ⟨job, token, none, opts⟩) h.jobsInProgress
      · exact congrArg (fun l => l ++ [⟨job, token⟩]) h.tasks

theorem Matches.poll
    (hsim : Simulates (impl clock) (impl' clock) (admits clock) rel) (h : Matches rel f f')
    (token : JobToken) (opts : WorkerOpts)
    (hadmits : AdmittedStep g impl admits f (.poll token opts clock)) :
    Matches rel (f.poll g impl token opts clock) (f'.poll g impl' token opts clock) := by
  obtain ⟨hfirst, hsecond⟩ := hadmits
  obtain ⟨hresult, hnext⟩ := hsim.exec_procedure _ h.store hfirst
  unfold Fleet.poll
  generalize Procedure.exec (impl clock) _ f.store = out at hresult hnext hsecond ⊢
  generalize Procedure.exec (impl' clock) _ f'.store = out' at hresult hnext ⊢
  obtain ⟨result, store⟩ := out
  obtain ⟨result', store'⟩ := out'
  obtain rfl : result' = result := hresult
  have hmatches : Matches rel { f with store } { f' with store := store' } :=
    ⟨hnext, h.jobsInProgress, h.tasks⟩
  cases result' with
  | error e => exact hmatches
  | ok found =>
    cases found with
    | processJob job => exact hmatches.dispatch hsim job token opts (hsecond job store rfl)
    | _ => exact hmatches

theorem Matches.finish
    (hsim : Simulates (impl clock) (impl' clock) (admits clock) rel) (h : Matches rel f f')
    (task : Task D R P) (returned : Except CaughtError R)
    (hfirst : (g.moveFinished task.job task.token returned clock).Admitted (impl clock)
      (admits clock) f.store)
    (hsecond : ∀ done store, (g.moveFinished task.job task.token returned clock).exec (impl clock)
      f.store = (.ok done, store) →
        (g.settleFinished task.jobId task.token.worker (f.jobsInProgress.get? task.jobId) clock
          done).Admitted (impl clock) (admits clock) store) :
    Matches rel (f.finish g impl task returned clock) (f'.finish g impl' task returned clock) := by
  obtain ⟨hresult, hnext⟩ := hsim.exec_procedure _ h.store hfirst
  unfold Fleet.finish
  generalize Procedure.exec (impl clock) (g.moveFinished _ _ _ _) f.store = out
    at hresult hnext hsecond ⊢
  generalize Procedure.exec (impl' clock) (g.moveFinished _ _ _ _) f'.store = out'
    at hresult hnext ⊢
  obtain ⟨result, store⟩ := out
  obtain ⟨result', store'⟩ := out'
  obtain rfl : result' = result := hresult
  cases result' with
  | error e => exact ⟨hnext, h.jobsInProgress, h.tasks⟩
  | ok done =>
    obtain ⟨-, hlast⟩ := hsim.exec_procedure _ hnext (hsecond done store rfl)
    refine ⟨?_, congrArg (fun m => m.remove task.jobId) h.jobsInProgress, h.tasks⟩
    dsimp only
    rw [h.jobsInProgress]
    exact hlast

end Simulation

end Fleet

end Kiomq
