import Kiomq.Foundations.Parties
import Kiomq.Foundations.Runs

/-!
# The life of a worker

`run` starts a `main_loop` task if it can exchange the state `Idle` for `Active`. The loop
itself stores `Idle` while it is parked, so a worker that was never started and one that
waits for work look alike: a call of `run` in the second case starts another loop. `close`
cancels the loop and waits for its end, but only if it finds the state `Active`.

The steps are the atomic operations of the calls and of the loops. What the environment
decides (whether a permit is free, whether there is a job, whether a call of the store
fails) is the Boolean of an action. The semaphore of a loop is never closed.
-/

namespace Kiomq

open Foundations

inductive WorkerState
  | active
  | idle
  | closed
  deriving DecidableEq, Repr

inductive WorkerError
  | alreadyRunningWithId
  | alreadyClosed
  deriving DecidableEq, Repr

inductive MainLoopPc
  | starting
  | loopTop
  | pauseCheck
  | parking
  | registering
  | waiting (notified : Bool)
  | resuming
  | permits
  | fetching (closed : Bool)
  | dispatching
  | sleeping
  | leaving
  | draining
  | closing
  | ended
  deriving DecidableEq, Repr

inductive RunPc
  | exchanging
  | checking (current : WorkerState)
  | rechecking (current : WorkerState)
  | spawning
  | storing (handle : ℕ)
  | returned (error : Option WorkerError)
  deriving DecidableEq, Repr

inductive ClosePc
  | checking
  | checkingToken
  | resuming
  | clearing
  | notifying
  | unpausing
  | cancelling
  | loading
  | waiting (handle : Option ℕ)
  | removing
  | returned
  deriving DecidableEq, Repr

/-- `madeAlive` records whether a loop was alive when the call was made. -/
structure RunCall where
  madeAlive : Bool
  pc : RunPc
  deriving DecidableEq

/-- `started` records whether the worker had been started when the call was made. -/
structure CloseCall where
  started : Bool
  pc : ClosePc
  deriving DecidableEq

/-- The cells that the loops and the calls share, and the number of jobs fetched. -/
structure WorkerCells where
  state : WorkerState := .idle
  cancelled : Bool := false
  pauseWorkers : Bool := false
  registered : Bool := true
  fetched : ℕ := 0
  deriving DecidableEq

/-- All loops that were spawned, by their handles. `closedAt` records the number of jobs
fetched when a call of `close` on the started worker has returned for the first time. -/
structure Lifecycle where
  cells : WorkerCells := {}
  mainTask : Option ℕ := none
  loops : List MainLoopPc := []
  runs : List RunCall := []
  closes : List CloseCall := []
  closedAt : Option ℕ := none

/-- Calls begin and go on; a loop goes on; others set the flag and notify the waiters. -/
inductive LifeAction
  | run
  | runCall (k : ℕ)
  | close
  | closeCall (k : ℕ) (answer : Bool)
  | loop (i : ℕ) (answer : Bool)
  | setPauseWorkers (flag : Bool)
  | notify

namespace MainLoopPc

def alive (pc : MainLoopPc) : Bool := decide (pc ≠ .ended)

/-- The loop has been cancelled and is on its way out. -/
def isLeaving : MainLoopPc → Bool
  | .leaving | .draining | .closing => true
  | _ => false

/-- The loop may have stored `Idle` last. -/
def isParked : MainLoopPc → Bool
  | .registering | .waiting _ | .resuming | .leaving | .draining | .closing => true
  | _ => false

theorem alive_of_isParked {pc : MainLoopPc} (h : pc.isParked = true) : pc.alive = true := by
  cases pc <;> simp_all [isParked, alive]

end MainLoopPc

namespace RunCall

/-- The call has won the exchange and has not spawned the loop yet. -/
def isSpawning (r : RunCall) : Bool := decide (r.pc = .spawning)

/-- What is known about a call of `run`: after its exchange, how it can still end. -/
structure Fits (r : RunCall) (cancelled : Bool) (loops : List MainLoopPc) : Prop where
  checking : ∀ current, r.pc = .checking current → current ≠ .idle
  rechecking : ∀ current, r.pc = .rechecking current → current = .closed ∨ cancelled = true
  storing : ∀ handle, r.pc = .storing handle → handle < loops.length
  made : r.madeAlive = true → loops ≠ [] ∧ r.pc ≠ .spawning ∧ (∀ h, r.pc ≠ .storing h) ∧
    r.pc ≠ .returned none

theorem Fits.mono {r : RunCall} {cancelled cancelled' : Bool} {loops loops' : List MainLoopPc}
    (h : r.Fits cancelled loops) (hcancel : cancelled = true → cancelled' = true)
    (hloops : loops.length ≤ loops'.length) : r.Fits cancelled' loops' where
  checking := h.checking
  rechecking := fun current hpc => (h.rechecking current hpc).imp_right hcancel
  storing := fun handle hpc => (h.storing handle hpc).trans_le hloops
  made := fun hmade => by
    obtain ⟨hne, hrest⟩ := h.made hmade
    refine ⟨?_, hrest⟩
    rintro rfl
    exact hne (List.length_eq_zero_iff.mp (Nat.le_zero.mp hloops))

theorem Fits.failed {r : RunCall} {cancelled : Bool} {loops : List MainLoopPc}
    (h : r.Fits cancelled loops) (error : WorkerError) :
    Fits { r with pc := .returned (some error) } cancelled loops :=
  ⟨by simp, by simp, by simp, fun hmade => ⟨(h.made hmade).1, by simp⟩⟩

end RunCall

namespace Lifecycle

/-- The next operation of a loop. A parked one needs a notification or the cancellation. -/
def loopStep (c : WorkerCells) (answer : Bool) : MainLoopPc → Option (WorkerCells × MainLoopPc)
  | .starting => some (c, .loopTop)
  | .loopTop => some (c, if c.cancelled then .leaving else .pauseCheck)
  | .pauseCheck => some (c, if c.pauseWorkers then .parking else .permits)
  | .parking => some ({ c with state := .idle }, .registering)
  | .registering => some (c, .waiting false)
  | .waiting notified =>
    if answer then if notified then some (c, .resuming) else none
    else if c.cancelled then some (c, .leaving) else none
  | .resuming => some ({ c with state := .active }, .permits)
  | .permits => some (c, if answer then .fetching c.cancelled else .loopTop)
  | .fetching closed =>
    if answer && !closed then some ({ c with fetched := c.fetched + 1 }, .dispatching)
    else some (c, .sleeping)
  | .dispatching => some (c, if answer then .loopTop else .ended)
  | .sleeping => some (c, .loopTop)
  | .leaving => some (c, if c.cancelled then .draining else .ended)
  | .draining => some (c, .closing)
  | .closing => some ({ c with state := .closed }, .ended)
  | .ended => none

def notifyWaiters (loops : List MainLoopPc) : List MainLoopPc :=
  loops.map fun
    | .waiting _ => .waiting true
    | pc => pc

def runStep (σ : Lifecycle) : RunPc → Option (Lifecycle × RunPc)
  | .exchanging =>
    if σ.cells.state = .idle then
      some ({ σ with cells := { σ.cells with state := .active } }, .spawning)
    else some (σ, .checking σ.cells.state)
  | .checking current =>
    if current = .active ∧ σ.cells.cancelled = false then
      some (σ, .returned (some .alreadyRunningWithId))
    else some (σ, .rechecking current)
  | .rechecking current =>
    if current = .closed ∨ σ.cells.cancelled = true then
      some (σ, .returned (some .alreadyClosed))
    else some (σ, .spawning)
  | .spawning => some ({ σ with loops := σ.loops ++ [.starting] }, .storing σ.loops.length)
  | .storing handle => some ({ σ with mainTask := some handle }, .returned none)
  | .returned _ => none

/-- The next operation of a call of `close`; the answer says whether the queue has work. -/
def closeStep (σ : Lifecycle) (answer : Bool) : ClosePc → Option (Lifecycle × ClosePc)
  | .checking => some (σ, if σ.cells.state = .active then .checkingToken else .returned)
  | .checkingToken => some (σ, if σ.cells.cancelled then .returned else .resuming)
  | .resuming =>
    if σ.cells.pauseWorkers && answer then
      some ({ σ with loops := notifyWaiters σ.loops }, .clearing)
    else some (σ, .notifying)
  | .clearing => some ({ σ with cells := { σ.cells with pauseWorkers := false } }, .notifying)
  | .notifying => some ({ σ with loops := notifyWaiters σ.loops }, .unpausing)
  | .unpausing => some ({ σ with cells := { σ.cells with pauseWorkers := false } }, .cancelling)
  | .cancelling => some ({ σ with cells := { σ.cells with cancelled := true } }, .loading)
  | .loading => some (σ, .waiting σ.mainTask)
  | .waiting none => some (σ, .removing)
  | .waiting (some handle) =>
    if σ.loops[handle]? = some .ended then some (σ, .removing) else none
  | .removing => some ({ σ with cells := { σ.cells with registered := false } }, .returned)
  | .returned => none

/-- The first return of a call on a started worker is recorded. -/
def noteReturn (σ : Lifecycle) (started : Bool) (pc : ClosePc) : Option ℕ :=
  if started = true ∧ pc = .returned ∧ σ.closedAt = none then some σ.cells.fetched
  else σ.closedAt

def step (σ : Lifecycle) : LifeAction → Option Lifecycle
  | .run => some { σ with runs := σ.runs ++ [⟨σ.loops.any MainLoopPc.alive, .exchanging⟩] }
  | .runCall k =>
    σ.runs[k]?.bind fun r => (σ.runStep r.pc).map fun out =>
      { out.1 with runs := out.1.runs.set k { r with pc := out.2 } }
  | .close => some { σ with closes := σ.closes ++ [⟨σ.mainTask.isSome, .checking⟩] }
  | .closeCall k answer =>
    σ.closes[k]?.bind fun c => (σ.closeStep answer c.pc).map fun out =>
      { out.1 with
        closes := out.1.closes.set k { c with pc := out.2 }
        closedAt := out.1.noteReturn c.started out.2 }
  | .loop i answer =>
    σ.loops[i]?.bind fun pc => (loopStep σ.cells answer pc).map fun out =>
      { σ with cells := out.1, loops := σ.loops.set i out.2 }
  | .setPauseWorkers flag => some { σ with cells := { σ.cells with pauseWorkers := flag } }
  | .notify => some { σ with loops := notifyWaiters σ.loops }

/-- At most one loop is alive, and no call of `run` that was made while one was alive has
succeeded. -/
def OneEngine (σ : Lifecycle) : Prop :=
  σ.loops.countP MainLoopPc.alive ≤ 1 ∧
    ∀ r ∈ σ.runs, r.madeAlive = true → r.pc ≠ .returned none

/-- `run` is not called on a parked worker: it does not find the state `Idle` while a loop is
alive. -/
def StartedOnce (σ : Lifecycle) : LifeAction → Prop
  | .runCall k =>
    ∀ r ∈ σ.runs[k]?, r.pc = .exchanging → σ.cells.state = .idle →
      ∀ pc ∈ σ.loops, pc.alive = false
  | _ => True

instance (σ : Lifecycle) (a : LifeAction) : Decidable (σ.StartedOnce a) := by
  cases a with
  | runCall k =>
    unfold StartedOnce
    simp only
    infer_instance
  | _ => exact isTrue trivial

/-! ### One loop in the whole life -/

/-- There is one loop, or one call that is about to spawn it. While the state is `Idle` that
loop is parked. -/
structure Inv (σ : Lifecycle) : Prop where
  engines : σ.loops.length + σ.runs.countP RunCall.isSpawning ≤ 1
  idle : σ.cells.state = .idle →
    σ.runs.countP RunCall.isSpawning = 0 ∧ ∀ pc ∈ σ.loops, pc.isParked = true
  leaving : ∀ pc ∈ σ.loops, pc.isLeaving = true → σ.cells.cancelled = true
  runs : ∀ r ∈ σ.runs, r.Fits σ.cells.cancelled σ.loops

theorem Inv.oneEngine {σ : Lifecycle} (h : σ.Inv) : σ.OneEngine := by
  constructor
  · have hle : σ.loops.countP MainLoopPc.alive ≤ σ.loops.length := List.countP_le_length
    have := h.engines
    omega
  · intro r hr hmade
    exact ((h.runs r hr).made hmade).2.2.2

theorem Inv.loops_eq {σ : Lifecycle} (h : σ.Inv) {i : ℕ} {pc : MainLoopPc}
    (hi : σ.loops[i]? = some pc) : i = 0 ∧ σ.loops = [pc] := by
  have hlen := h.engines
  cases hl : σ.loops with
  | nil => simp [hl] at hi
  | cons x rest =>
    rw [hl, List.length_cons] at hlen
    obtain rfl : rest = [] := List.length_eq_zero_iff.mp (by omega)
    cases i with
    | zero =>
      obtain rfl : x = pc := by simpa [hl] using hi
      exact ⟨rfl, rfl⟩
    | succ i => simp [hl] at hi

/-- One operation of the loop: it stays on its way out only if it was cancelled, and while
the state is `Idle` it is parked. -/
theorem loopStep_spec {c c' : WorkerCells} {answer : Bool} {pc pc' : MainLoopPc}
    (h : loopStep c answer pc = some (c', pc')) :
    c'.cancelled = c.cancelled ∧ c'.registered = c.registered ∧ pc ≠ .ended ∧
      ((pc.isLeaving = true → c.cancelled = true) → pc'.isLeaving = true →
        c.cancelled = true) ∧
      ((pc.isLeaving = true → c.cancelled = true) → (c.state = .idle → pc.isParked = true) →
        c'.state = .idle → pc'.isParked = true) := by
  cases pc <;> simp only [loopStep] at h
  case waiting notified =>
    split_ifs at h with ha hn hc
    · obtain ⟨rfl, rfl⟩ := Prod.mk.inj (Option.some.inj h)
      simp [MainLoopPc.isLeaving, MainLoopPc.isParked]
    · obtain ⟨rfl, rfl⟩ := Prod.mk.inj (Option.some.inj h)
      simp [MainLoopPc.isLeaving, MainLoopPc.isParked, hc]
  case fetching closed =>
    split_ifs at h with ha
    · obtain ⟨rfl, rfl⟩ := Prod.mk.inj (Option.some.inj h)
      simp [MainLoopPc.isLeaving, MainLoopPc.isParked]
    · obtain ⟨rfl, rfl⟩ := Prod.mk.inj (Option.some.inj h)
      simp [MainLoopPc.isLeaving, MainLoopPc.isParked]
  case ended => simp at h
  all_goals
    obtain ⟨rfl, rfl⟩ := Prod.mk.inj (Option.some.inj h)
    try split_ifs
    all_goals simp_all [MainLoopPc.isLeaving, MainLoopPc.isParked]

theorem length_of_notified {loops loops' : List MainLoopPc}
    (h : loops' = loops ∨ loops' = notifyWaiters loops) : loops'.length = loops.length := by
  rcases h with rfl | rfl
  · rfl
  · exact List.length_map ..

theorem mem_notifyWaiters {loops : List MainLoopPc} {pc : MainLoopPc}
    (h : pc ∈ notifyWaiters loops) :
    ∃ before ∈ loops, pc.isParked = before.isParked ∧ pc.isLeaving = before.isLeaving ∧
      (before = .ended → pc = .ended) := by
  obtain ⟨before, hmem, rfl⟩ := List.mem_map.mp h
  refine ⟨before, hmem, ?_⟩
  cases before <;> simp [MainLoopPc.isParked, MainLoopPc.isLeaving]

theorem Inv.frame {σ τ : Lifecycle} (h : σ.Inv) (hstate : τ.cells.state = σ.cells.state)
    (hcancel : σ.cells.cancelled = true → τ.cells.cancelled = true) (hruns : τ.runs = σ.runs)
    (hloops : τ.loops = σ.loops ∨ τ.loops = notifyWaiters σ.loops) : τ.Inv := by
  have hlen := length_of_notified hloops
  have hmem : ∀ pc ∈ τ.loops, ∃ before ∈ σ.loops, pc.isParked = before.isParked ∧
      pc.isLeaving = before.isLeaving := by
    intro pc hpc
    rcases hloops with hl | hl
    · exact ⟨pc, hl ▸ hpc, rfl, rfl⟩
    · obtain ⟨before, hb, hp, hv, -⟩ := mem_notifyWaiters (hl ▸ hpc)
      exact ⟨before, hb, hp, hv⟩
  constructor
  · rw [hlen, hruns]
    exact h.engines
  · intro hidle
    rw [hstate] at hidle
    obtain ⟨hzero, hparked⟩ := h.idle hidle
    refine ⟨by rw [hruns]; exact hzero, fun pc hpc => ?_⟩
    obtain ⟨before, hb, hp, -⟩ := hmem pc hpc
    rw [hp]
    exact hparked before hb
  · intro pc hpc hleaving
    obtain ⟨before, hb, -, hv⟩ := hmem pc hpc
    exact hcancel (h.leaving before hb (hv ▸ hleaving))
  · rw [hruns]
    intro r hr
    exact (h.runs r hr).mono hcancel hlen.ge

theorem closeStep_spec {σ τ : Lifecycle} {answer : Bool} {pc pc' : ClosePc}
    (h : σ.closeStep answer pc = some (τ, pc')) :
    τ.cells.state = σ.cells.state ∧ τ.cells.fetched = σ.cells.fetched ∧
      (σ.cells.cancelled = true → τ.cells.cancelled = true) ∧ τ.runs = σ.runs ∧
      (τ.loops = σ.loops ∨ τ.loops = notifyWaiters σ.loops) ∧ τ.mainTask = σ.mainTask ∧
      τ.closes = σ.closes ∧ τ.closedAt = σ.closedAt ∧
      (σ.cells.registered = false → τ.cells.registered = false) := by
  cases pc with
  | resuming =>
    simp only [closeStep] at h
    split_ifs at h
    · obtain ⟨rfl, rfl⟩ := Prod.mk.inj (Option.some.inj h)
      simp
    · obtain ⟨rfl, rfl⟩ := Prod.mk.inj (Option.some.inj h)
      simp
  | waiting handle =>
    obtain rfl : σ = τ := by
      cases handle with
      | none => exact (Prod.mk.inj (Option.some.inj h)).1
      | some i =>
        simp only [closeStep] at h
        split_ifs at h
        exact (Prod.mk.inj (Option.some.inj h)).1
    simp
  | returned => simp [closeStep] at h
  | _ =>
    obtain ⟨rfl, rfl⟩ := Prod.mk.inj (Option.some.inj h)
    simp

theorem loop_inv {σ τ : Lifecycle} {i : ℕ} {answer : Bool} (h : σ.Inv)
    (hstep : σ.step (.loop i answer) = some τ) : τ.Inv := by
  obtain ⟨pc, hi, hstep⟩ := Option.bind_eq_some_iff.mp hstep
  obtain ⟨⟨cells, pc'⟩, hout, rfl⟩ := Option.map_eq_some_iff.mp hstep
  obtain ⟨rfl, hloops⟩ := h.loops_eq hi
  obtain ⟨hcancel, -, -, hleave, hpark⟩ := loopStep_spec hout
  have hpc : pc ∈ σ.loops := List.mem_of_getElem? hi
  constructor
  · simpa using h.engines
  · intro hidle
    have hparked := hpark (h.leaving pc hpc) (fun hs => (h.idle hs).2 pc hpc) hidle
    refine ⟨?_, by simp [hloops, hparked]⟩
    have := h.engines
    simp only [hloops, List.length_singleton] at this
    change σ.runs.countP RunCall.isSpawning = 0
    omega
  · intro pc'' hpc'' hleaving
    obtain rfl : pc'' = pc' := by simpa [hloops] using hpc''
    exact hcancel.trans (hleave (h.leaving pc hpc) hleaving)
  · intro r hr
    exact (h.runs r hr).mono (fun hc => hcancel.trans hc) (by simp)

theorem Inv.setRun {σ : Lifecycle} (h : σ.Inv) {k : ℕ} {r r' : RunCall} {m : Option ℕ}
    (hk : σ.runs[k]? = some r) (hspawn : r'.isSpawning = r.isSpawning)
    (hfits : r'.Fits σ.cells.cancelled σ.loops) :
    Inv { σ with mainTask := m, runs := σ.runs.set k r' } := by
  have hcount : (σ.runs.set k r').countP RunCall.isSpawning = σ.runs.countP RunCall.isSpawning :=
    countP_set_eq hk hspawn
  constructor
  · rw [hcount]
    exact h.engines
  · intro hidle
    rw [hcount]
    exact h.idle hidle
  · exact h.leaving
  · exact forall_mem_set h.runs hfits

/-- A call finds the state `Idle`. All loops are parked then, so if none is alive there is none. -/
theorem Inv.exchange {σ : Lifecycle} (h : σ.Inv) {k : ℕ} {r : RunCall}
    (hk : σ.runs[k]? = some r) (hpc : r.pc = .exchanging) (hidle : σ.cells.state = .idle)
    (hdead : ∀ pc ∈ σ.loops, pc.alive = false) :
    Inv { σ with
      cells := { σ.cells with state := .active }
      runs := σ.runs.set k { r with pc := .spawning } } := by
  obtain ⟨hzero, hparked⟩ := h.idle hidle
  have hnone : σ.loops = [] := by
    apply List.eq_nil_iff_forall_not_mem.mpr
    intro pc hmem
    have halive := MainLoopPc.alive_of_isParked (hparked pc hmem)
    rw [hdead pc hmem] at halive
    cases halive
  have hcount := countP_set_enter (b := { r with pc := RunPc.spawning }) hk
    (p := RunCall.isSpawning) (by simp [RunCall.isSpawning, hpc]) (by simp [RunCall.isSpawning])
  constructor
  · simp only [hnone, List.length_nil, hcount, hzero]
    omega
  · simp
  · simp [hnone]
  · apply forall_mem_set h.runs
    refine ⟨by simp, by simp, by simp, fun hmade => ?_⟩
    exact absurd hnone ((h.runs r (List.mem_of_getElem? hk)).made hmade).1

/-- A call spawns its loop. No other call is about to do so, and there is no other loop. -/
theorem Inv.spawn {σ : Lifecycle} (h : σ.Inv) {k : ℕ} {r : RunCall}
    (hk : σ.runs[k]? = some r) (hpc : r.pc = .spawning) :
    Inv { σ with
      loops := σ.loops ++ [.starting]
      runs := σ.runs.set k { r with pc := .storing σ.loops.length } } := by
  have hspawn : r.isSpawning = true := by simp [RunCall.isSpawning, hpc]
  have hpos := countP_pos_of_getElem? hk hspawn
  have hcount := countP_set_leave (b := { r with pc := RunPc.storing σ.loops.length }) hk
    hspawn (by simp [RunCall.isSpawning])
  have hactive : σ.cells.state ≠ .idle := by
    intro hidle
    have := (h.idle hidle).1
    omega
  constructor
  · have := h.engines
    simp only [List.length_append, List.length_singleton]
    omega
  · intro hidle
    exact absurd hidle hactive
  · apply forall_mem_concat h.leaving
    simp [MainLoopPc.isLeaving]
  · apply forall_mem_set
    · intro r' hr'
      exact (h.runs r' hr').mono id (by simp)
    · refine ⟨by simp, by simp, fun handle hh => ?_, fun hmade => ?_⟩
      · obtain rfl := RunPc.storing.inj hh
        simp
      · exact absurd hpc ((h.runs r (List.mem_of_getElem? hk)).made hmade).2.1

theorem run_inv {σ τ : Lifecycle} {k : ℕ} (h : σ.Inv) (hguard : σ.StartedOnce (.runCall k))
    (hstep : σ.step (.runCall k) = some τ) : τ.Inv := by
  obtain ⟨r, hk, hstep⟩ := Option.bind_eq_some_iff.mp hstep
  obtain ⟨⟨ρ, pc'⟩, hout, rfl⟩ := Option.map_eq_some_iff.mp hstep
  have hr := List.mem_of_getElem? hk
  have hfits := h.runs r hr
  cases hpc : r.pc with
  | exchanging =>
    simp only [hpc, runStep] at hout
    split_ifs at hout with hidle
    · obtain ⟨rfl, rfl⟩ := Prod.mk.inj (Option.some.inj hout)
      exact h.exchange hk hpc hidle (hguard r hk hpc hidle)
    · obtain ⟨rfl, rfl⟩ := Prod.mk.inj (Option.some.inj hout)
      apply h.setRun hk
      · simp [RunCall.isSpawning, hpc]
      · refine ⟨fun current hcur => ?_, by simp, by simp, fun hmade => ?_⟩
        · obtain rfl := RunPc.checking.inj hcur
          exact hidle
        · exact ⟨(hfits.made hmade).1, by simp, by simp, by simp⟩
  | checking current =>
    have hcur := hfits.checking current hpc
    simp only [hpc, runStep] at hout
    split_ifs at hout with hrunning
    · obtain ⟨rfl, rfl⟩ := Prod.mk.inj (Option.some.inj hout)
      apply h.setRun hk
      · simp [RunCall.isSpawning, hpc]
      · exact hfits.failed _
    · obtain ⟨rfl, rfl⟩ := Prod.mk.inj (Option.some.inj hout)
      apply h.setRun hk
      · simp [RunCall.isSpawning, hpc]
      · refine ⟨by simp, fun current' hcur' => ?_, by simp,
          fun hmade => ⟨(hfits.made hmade).1, by simp⟩⟩
        obtain rfl := RunPc.rechecking.inj hcur'
        cases current with
        | active => exact Or.inr (by simpa using hrunning)
        | idle => exact absurd rfl hcur
        | closed => exact Or.inl rfl
  | rechecking current =>
    simp only [hpc, runStep, if_pos (hfits.rechecking current hpc)] at hout
    obtain ⟨rfl, rfl⟩ := Prod.mk.inj (Option.some.inj hout)
    apply h.setRun hk
    · simp [RunCall.isSpawning, hpc]
    · exact hfits.failed _
  | spawning =>
    simp only [hpc, runStep] at hout
    obtain ⟨rfl, rfl⟩ := Prod.mk.inj (Option.some.inj hout)
    exact h.spawn hk hpc
  | storing handle =>
    simp only [hpc, runStep] at hout
    obtain ⟨rfl, rfl⟩ := Prod.mk.inj (Option.some.inj hout)
    apply h.setRun hk
    · simp [RunCall.isSpawning, hpc]
    · exact ⟨by simp, by simp, by simp,
        fun hmade => absurd hpc ((hfits.made hmade).2.2.1 handle)⟩
  | returned error => simp [hpc, runStep] at hout

theorem step_inv (σ : Lifecycle) (a : LifeAction) (τ : Lifecycle) (h : σ.Inv)
    (hguard : σ.StartedOnce a) (hstep : σ.step a = some τ) : τ.Inv := by
  cases a with
  | run =>
    obtain rfl := Option.some.inj hstep
    constructor
    · simpa [RunCall.isSpawning] using h.engines
    · simpa [RunCall.isSpawning] using h.idle
    · exact h.leaving
    · apply forall_mem_concat h.runs
      refine ⟨by simp, by simp, by simp, fun hmade => ⟨?_, by simp⟩⟩
      obtain ⟨pc, hmem, -⟩ := List.any_eq_true.mp hmade
      exact List.ne_nil_of_mem hmem
  | runCall k => exact run_inv h hguard hstep
  | close =>
    obtain rfl := Option.some.inj hstep
    exact h.frame rfl id rfl (Or.inl rfl)
  | closeCall k answer =>
    obtain ⟨c, -, hstep⟩ := Option.bind_eq_some_iff.mp hstep
    obtain ⟨⟨ρ, pc'⟩, hout, rfl⟩ := Option.map_eq_some_iff.mp hstep
    obtain ⟨hstate, -, hcancel, hruns, hloops, -⟩ := closeStep_spec hout
    exact h.frame hstate hcancel hruns hloops
  | loop i answer => exact loop_inv h hstep
  | setPauseWorkers flag =>
    obtain rfl := Option.some.inj hstep
    exact h.frame rfl id rfl (Or.inl rfl)
  | notify =>
    obtain rfl := Option.some.inj hstep
    exact h.frame rfl id rfl (Or.inr rfl)

theorem start_inv : ({} : Lifecycle).Inv := by
  refine ⟨by simp, by simp, by simp, by simp⟩

/-- Any number of calls, in any order with the steps of the loops: a worker whose `run` is
not called while it is parked has at most one loop. -/
theorem oneEngine_of_startedOnce (as : List LifeAction) (h : Guarded step StartedOnce {} as) :
    Always step OneEngine {} as :=
  always_of_invariant step_inv (fun _ h => h.oneEngine) start_inv h

/-- A worker is started and a second call of `run` is refused; the loop parks itself, is
notified, and stores `Active` before the third call, which is refused as well. -/
def startedOnceRun : List LifeAction :=
  [.run, .runCall 0, .runCall 0, .runCall 0, .run, .runCall 1, .runCall 1, .setPauseWorkers true,
    .loop 0 true, .loop 0 true, .loop 0 true, .loop 0 true, .loop 0 true, .notify,
    .setPauseWorkers false, .loop 0 true, .loop 0 true, .run, .runCall 2, .runCall 2]

theorem startedOnceRun_oneEngine :
    (Foundations.run step {} startedOnceRun).map (fun σ => (σ.loops, σ.runs.map RunCall.pc)) =
        some ([.permits], [.returned none, .returned (some .alreadyRunningWithId),
          .returned (some .alreadyRunningWithId)]) ∧
      Guarded step StartedOnce {} startedOnceRun ∧ Always step OneEngine {} startedOnceRun :=
  ⟨by decide +kernel, by decide +kernel, oneEngine_of_startedOnce startedOnceRun
    (by decide +kernel)⟩

/-- `run` is called while the only loop is parked. -/
def restartedRun : List LifeAction :=
  [.run, .runCall 0, .runCall 0, .runCall 0, .setPauseWorkers true, .loop 0 true, .loop 0 true,
    .loop 0 true, .loop 0 true, .loop 0 true, .run, .runCall 1, .runCall 1, .runCall 1]

/-- The second call succeeds and two loops are alive. -/
theorem restartedRun_two_engines :
    (Foundations.run step {} restartedRun).map (fun σ => (σ.loops, σ.runs.map RunCall.pc)) =
        some ([.waiting false, .starting], [.returned none, .returned none]) ∧
      ¬ Always step OneEngine {} restartedRun := by
  refine ⟨by decide +kernel, ?_⟩
  apply not_always_of_run fun σ => decide (1 < σ.loops.countP MainLoopPc.alive)
  · intro σ hσ h
    have := of_decide_eq_true hσ
    have := h.1
    omega
  · decide +kernel

end Lifecycle

end Kiomq
