import Kiomq.Foundations.Parties
import Kiomq.Foundations.Runs

/-!
# The concurrency limit of a worker

One execution of `main_loop` with its semaphore, and the `process_job` tasks that it spawns. The
loop looks at the free permits and at the length of the task tracker, acquires a permit, polls
for a job, and moves the permit into the task or drops it. A task drops its permit when its body
returns; the tracker forgets it later. So a permit can be free while its task is still tracked,
and it is the length of the tracker that keeps the unfinished tasks within the limit.

The steps are the atomic operations. What the environment decides (the cancellation, the pause
flag, a notification, an error of the store) is the Boolean of an action. The tracker belongs
to the worker, so it may hold tasks of other loops too.
-/

namespace Kiomq

open Foundations

inductive SlotPc
  | starting
  | loopTop
  | pauseCheck
  | parked
  | permitCheck
  | lengthCheck
  | acquiring
  | polling
  | counting
  | spawning
  | withoutId
  | dropping
  | sleeping
  | failing
  | leaving
  | draining
  | ended
  deriving DecidableEq, Repr

namespace SlotPc

/-- The local variable `permit` is alive. -/
def holdsPermit : SlotPc → Bool
  | polling | counting | spawning | withoutId | dropping | failing => true
  | _ => false

def admitted : SlotPc → Bool
  | acquiring | polling | counting | spawning => true
  | _ => false

end SlotPc

/-- A `process_job` task: its body runs, it has returned, or the tracker has forgotten it. -/
inductive TaskStage
  | running
  | returned
  | finished
  deriving DecidableEq, Repr

/-- What a poll gives: a job, which may lack an id, nothing, or an error. -/
inductive PollResult
  | job (hasId : Bool)
  | nothing
  | failed
  deriving DecidableEq, Repr

/-- The loop, the available permits once there is a semaphore, its tasks in the order in which
they were spawned, and the number of other tasks in the tracker. -/
structure WorkerSlots where
  pc : SlotPc := .starting
  permits : Option ℕ := none
  tasks : List TaskStage := []
  others : ℕ := 0
  deriving DecidableEq, Repr

/-- The loop goes on; a poll answers; a task returns or is forgotten; another task comes or
goes. -/
inductive SlotAction
  | loop (answer : Bool)
  | poll (result : PollResult)
  | returns (i : ℕ)
  | forget (i : ℕ)
  | other (comes : Bool)

/-- `Semaphore::MAX_PERMITS`. -/
def maxPermits : ℕ := 2 ^ 61 - 1

namespace WorkerSlots

/-- The tasks that have been spawned and have not finished. -/
def unfinished (σ : WorkerSlots) : ℕ := σ.tasks.countP fun t => t ≠ .finished

/-- The permits that the loop and the tasks hold. -/
def held (σ : WorkerSlots) : ℕ :=
  (if σ.pc.holdsPermit then 1 else 0) + σ.tasks.countP fun t => t = .running

def tracked (σ : WorkerSlots) : ℕ := σ.unfinished + σ.others

/-- A permit that is dropped is available again. -/
def dropPermit (σ : WorkerSlots) (pc : SlotPc) : WorkerSlots :=
  { σ with permits := σ.permits.map fun n => n + 1, pc }

def loopStep (c : ℕ) (answer : Bool) (σ : WorkerSlots) : Option WorkerSlots :=
  match σ.pc with
  | .starting =>
    -- `Semaphore::new` panics if there are too many permits
    if maxPermits < c then some { σ with pc := .ended }
    else some { σ with permits := some c, pc := .loopTop }
  | .loopTop => some { σ with pc := if answer then .leaving else .pauseCheck }
  | .pauseCheck => some { σ with pc := if answer then .parked else .permitCheck }
  | .parked => some { σ with pc := if answer then .permitCheck else .leaving }
  | .permitCheck => some { σ with pc := if σ.permits = some 0 then .loopTop else .lengthCheck }
  | .lengthCheck => some { σ with pc := if c ≤ σ.tracked then .loopTop else .acquiring }
  | .acquiring =>
    if answer then
      match σ.permits with
      | some (n + 1) => some { σ with permits := some n, pc := .polling }
      | _ => none
    else some { σ with pc := .leaving }
  | .polling => none
  | .counting => some { σ with pc := if answer then .spawning else .failing }
  | .spawning => some { σ with tasks := σ.tasks ++ [.running], pc := .loopTop }
  | .withoutId => some (σ.dropPermit .loopTop)
  | .dropping => some (σ.dropPermit .sleeping)
  | .sleeping => some { σ with pc := .loopTop }
  | .failing => some (σ.dropPermit .ended)
  | .leaving => some { σ with pc := if answer then .draining else .ended }
  | .draining => if σ.tracked = 0 then some { σ with pc := .ended } else none
  | .ended => none

def afterPoll : PollResult → SlotPc
  | .job true => .counting
  | .job false => .withoutId
  | .nothing => .dropping
  | .failed => .dropping

def step (c : ℕ) (σ : WorkerSlots) : SlotAction → Option WorkerSlots
  | .loop answer => σ.loopStep c answer
  | .poll result => if σ.pc = .polling then some { σ with pc := afterPoll result } else none
  | .returns i =>
    if σ.tasks[i]? = some .running then
      some { σ.dropPermit σ.pc with tasks := σ.tasks.set i .returned }
    else none
  | .forget i =>
    if σ.tasks[i]? = some .returned then some { σ with tasks := σ.tasks.set i .finished }
    else none
  | .other comes =>
    if comes then some { σ with others := σ.others + 1 }
    else if 0 < σ.others then some { σ with others := σ.others - 1 } else none

/-- At most `c` tasks are unfinished, and each permit of the semaphore is held or available. -/
def WithinLimit (c : ℕ) (σ : WorkerSlots) : Prop :=
  σ.unfinished ≤ c ∧ ∀ available, σ.permits = some available → σ.held + available = c

/-! ### What a step of the loop can do -/

inductive LoopMove (c : ℕ) (σ : WorkerSlots) : WorkerSlots → Prop
  | goesOn (pc : SlotPc) (hstart : pc ≠ .starting) (hholds : pc.holdsPermit = σ.pc.holdsPermit)
      (hadmitted : pc.admitted = true → σ.pc.admitted = true ∨ σ.unfinished < c) :
      LoopMove c σ { σ with pc }
  | starts (hpc : σ.pc = .starting) :
      LoopMove c σ { σ with permits := some c, pc := .loopTop }
  | acquires (n : ℕ) (hpc : σ.pc = .acquiring) (hpermits : σ.permits = some (n + 1)) :
      LoopMove c σ { σ with permits := some n, pc := .polling }
  | drops (pc : SlotPc) (hstart : pc ≠ .starting) (hholds : σ.pc.holdsPermit = true)
      (hfree : pc.holdsPermit = false) (hadmitted : pc.admitted = false) :
      LoopMove c σ (σ.dropPermit pc)
  | spawns (hpc : σ.pc = .spawning) :
      LoopMove c σ { σ with tasks := σ.tasks ++ [.running], pc := .loopTop }

theorem LoopMove.keeps {c : ℕ} {σ : WorkerSlots} {before after : SlotPc} (hpc : σ.pc = before)
    (hstart : after ≠ .starting) (hholds : after.holdsPermit = before.holdsPermit)
    (hadmitted : after.admitted = true → before.admitted = true) :
    LoopMove c σ { σ with pc := after } := by
  subst hpc
  exact .goesOn after hstart hholds fun h => Or.inl (hadmitted h)

theorem loopMove_of_loopStep {c : ℕ} {answer : Bool} {σ τ : WorkerSlots}
    (h : σ.loopStep c answer = some τ) : LoopMove c σ τ := by
  unfold loopStep at h
  cases hpc : σ.pc with
  | starting =>
    simp only [hpc] at h
    split_ifs at h
    · obtain rfl := Option.some.inj h
      exact .keeps hpc (by decide) rfl (by decide)
    · obtain rfl := Option.some.inj h
      exact .starts hpc
  | loopTop | pauseCheck | parked | leaving =>
    simp only [hpc, Option.some.injEq] at h
    subst h
    cases answer <;> exact .keeps hpc (by decide) rfl (by decide)
  | permitCheck =>
    simp only [hpc, Option.some.injEq] at h
    subst h
    split_ifs <;> exact .keeps hpc (by decide) rfl (by decide)
  | lengthCheck =>
    simp only [hpc, Option.some.injEq] at h
    subst h
    split_ifs with hlength
    · exact .keeps hpc (by decide) rfl (by decide)
    · have hfew : σ.unfinished < c := by
        unfold tracked at hlength
        omega
      exact .goesOn _ (by decide) (by rw [hpc]; rfl) fun _ => Or.inr hfew
  | acquiring =>
    simp only [hpc] at h
    split_ifs at h
    · split at h
      · next n hpermits =>
        obtain rfl := Option.some.inj h
        exact .acquires n hpc hpermits
      · cases h
    · obtain rfl := Option.some.inj h
      exact .keeps hpc (by decide) rfl (by decide)
  | polling | ended => simp [hpc] at h
  | counting =>
    simp only [hpc, Option.some.injEq] at h
    subst h
    cases answer <;> exact .keeps hpc (by decide) rfl (by decide)
  | spawning =>
    simp only [hpc, Option.some.injEq] at h
    subst h
    exact .spawns hpc
  | withoutId | dropping | failing =>
    simp only [hpc, Option.some.injEq] at h
    subst h
    exact .drops _ (by decide) (by rw [hpc]; rfl) rfl rfl
  | sleeping =>
    simp only [hpc, Option.some.injEq] at h
    subst h
    exact .keeps hpc (by decide) rfl (by decide)
  | draining =>
    simp only [hpc] at h
    split_ifs at h
    obtain rfl := Option.some.inj h
    exact .keeps hpc (by decide) rfl (by decide)

/-! ### The invariant -/

/-- There is room for the task that an admitted loop may spawn. -/
structure Inv (c : ℕ) (σ : WorkerSlots) : Prop where
  fresh : σ.pc = .starting → σ.tasks = []
  room : σ.unfinished + (if σ.pc.admitted then 1 else 0) ≤ c
  conserved : ∀ available, σ.permits = some available → σ.held + available = c

theorem inv_init (c : ℕ) : Inv c {} := by
  constructor
  · exact fun _ => rfl
  · simp [unfinished, SlotPc.admitted]
  · simp

theorem Inv.withinLimit {c : ℕ} {σ : WorkerSlots} (h : Inv c σ) : WithinLimit c σ :=
  ⟨(Nat.le_add_right _ _).trans h.room, h.conserved⟩

/-- Dropping a permit makes up for the one that is no longer held. -/
theorem conserved_drop {c : ℕ} {permits : Option ℕ} {held held' : ℕ}
    (h : ∀ available, permits = some available → held + available = c) (hheld : held = held' + 1) :
    ∀ available, (permits.map fun n => n + 1) = some available → held' + available = c := by
  intro available havailable
  obtain ⟨n, hn, rfl⟩ := Option.map_eq_some_iff.mp havailable
  have := h n hn
  omega

theorem Inv.loop {c : ℕ} {σ τ : WorkerSlots} (h : Inv c σ) (hmove : LoopMove c σ τ) : Inv c τ := by
  have hroom := h.room
  cases hmove with
  | goesOn pc hstart hholds hadmitted =>
    refine ⟨fun hpc => absurd hpc hstart, ?_, ?_⟩
    · change σ.unfinished + (if pc.admitted then 1 else 0) ≤ c
      by_cases hpc : pc.admitted = true
      · rw [if_pos hpc]
        rcases hadmitted hpc with hbefore | hfew
        · rwa [if_pos hbefore] at hroom
        · exact hfew
      · rw [if_neg hpc]
        omega
    · have hheld : held { σ with pc } = σ.held := by simp only [held, hholds]
      rw [hheld]
      exact h.conserved
  | starts hpc =>
    have htasks := h.fresh hpc
    refine ⟨by simp, ?_, ?_⟩
    · simp [unfinished, htasks, SlotPc.admitted]
    · simp [held, htasks, SlotPc.holdsPermit]
  | acquires n hpc hpermits =>
    refine ⟨by simp, ?_, ?_⟩
    · simpa [unfinished, hpc, SlotPc.admitted] using hroom
    · have hbefore := h.conserved (n + 1) hpermits
      simp only [held, hpc, SlotPc.holdsPermit, Bool.false_eq_true, if_false] at hbefore
      intro available havailable
      obtain rfl := Option.some.inj havailable
      simp only [held, SlotPc.holdsPermit, if_true]
      omega
  | drops pc hstart hholds hfree hadmitted =>
    refine ⟨fun hpc => absurd hpc hstart, ?_, conserved_drop h.conserved ?_⟩
    · simp only [dropPermit, hadmitted, Bool.false_eq_true, if_false, add_zero]
      exact (Nat.le_add_right _ _).trans hroom
    · simp only [held, dropPermit, hholds, hfree, if_true, Bool.false_eq_true, if_false]
      omega
  | spawns hpc =>
    -- the room was kept for this task, and its permit is the one that the loop had
    refine ⟨by simp, ?_, ?_⟩
    · simpa [unfinished, hpc, SlotPc.admitted, List.countP_append] using hroom
    · have hheld : held { σ with tasks := σ.tasks ++ [.running], pc := .loopTop } = σ.held := by
        simp only [held, hpc, SlotPc.holdsPermit, Bool.false_eq_true, if_false, if_true,
          List.countP_append, List.countP_singleton, decide_true]
        omega
      rw [hheld]
      exact h.conserved

theorem Inv.poll {c : ℕ} {σ : WorkerSlots} (h : Inv c σ) (hpc : σ.pc = .polling)
    (result : PollResult) : Inv c { σ with pc := afterPoll result } := by
  have hmove : LoopMove c σ { σ with pc := afterPoll result } := by
    rcases result with hasId | _ | _
    · cases hasId <;> exact .keeps hpc (by decide) rfl (by decide)
    · exact .keeps hpc (by decide) rfl (by decide)
    · exact .keeps hpc (by decide) rfl (by decide)
  exact h.loop hmove

theorem Inv.returns {c : ℕ} {σ : WorkerSlots} (h : Inv c σ) {i : ℕ}
    (hi : σ.tasks[i]? = some .running) :
    Inv c { σ.dropPermit σ.pc with tasks := σ.tasks.set i .returned } := by
  have hcount : (σ.tasks.set i .returned).countP (fun t => decide (t ≠ .finished)) =
      σ.tasks.countP fun t => decide (t ≠ .finished) := countP_set_eq hi rfl
  have hrunning : σ.tasks.countP (fun t => decide (t = .running)) =
      (σ.tasks.set i .returned).countP (fun t => decide (t = .running)) + 1 :=
    countP_set_leave hi rfl rfl
  refine ⟨fun hpc => ?_, ?_, conserved_drop h.conserved ?_⟩
  · simp [h.fresh hpc] at hi
  · simp only [unfinished, dropPermit, hcount]
    exact h.room
  · rw [held, hrunning, ← Nat.add_assoc]
    rfl

theorem Inv.forget {c : ℕ} {σ : WorkerSlots} (h : Inv c σ) {i : ℕ}
    (hi : σ.tasks[i]? = some .returned) :
    Inv c { σ with tasks := σ.tasks.set i .finished } := by
  have hcount : σ.tasks.countP (fun t => decide (t ≠ .finished)) =
      (σ.tasks.set i .finished).countP (fun t => decide (t ≠ .finished)) + 1 :=
    countP_set_leave hi rfl rfl
  have hrunning : (σ.tasks.set i .finished).countP (fun t => decide (t = .running)) =
      σ.tasks.countP fun t => decide (t = .running) := countP_set_eq hi rfl
  have hroom := h.room
  refine ⟨fun hpc => ?_, ?_, ?_⟩
  · simp [h.fresh hpc] at hi
  · simp only [unfinished] at hroom ⊢
    omega
  · simp only [held, hrunning]
    exact h.conserved

theorem step_inv {c : ℕ} (σ : WorkerSlots) (a : SlotAction) (τ : WorkerSlots) (h : Inv c σ)
    (hstep : σ.step c a = some τ) : Inv c τ := by
  cases a with
  | loop answer => exact h.loop (loopMove_of_loopStep hstep)
  | poll result =>
    simp only [step] at hstep
    split_ifs at hstep with hpc
    obtain rfl := Option.some.inj hstep
    exact h.poll hpc result
  | returns i =>
    simp only [step] at hstep
    split_ifs at hstep with hi
    obtain rfl := Option.some.inj hstep
    exact h.returns hi
  | forget i =>
    simp only [step] at hstep
    split_ifs at hstep with hi
    obtain rfl := Option.some.inj hstep
    exact h.forget hi
  | other comes =>
    have hsame : ∀ n, Inv c { σ with others := n } := fun _ => ⟨h.fresh, h.room, h.conserved⟩
    simp only [step] at hstep
    split_ifs at hstep
    · obtain rfl := Option.some.inj hstep
      exact hsame _
    · obtain rfl := Option.some.inj hstep
      exact hsame _

/-- Whatever the polls answer and in whatever order the tasks end: at most `c` tasks of the loop
are unfinished, and the permits held and available are `c` together. -/
theorem concurrency_within_limit (c : ℕ) (actions : List SlotAction) :
    Always (step c) (WithinLimit c) {} actions :=
  always_of_invariant_all step_inv (fun _ h => h.withinLimit) (inv_init c) actions

/-- The permit of the first task is free again, but the tracker has not forgotten the task: the
loop starts over. -/
example :
    (run (step 1) {} [.loop false, .loop false, .loop false, .loop false, .loop false, .loop true,
      .poll (.job true), .loop true, .loop true, .returns 0, .loop false, .loop false, .loop false,
      .loop false]).map
        (fun σ => (σ.pc, σ.unfinished, σ.permits)) = some (.loopTop, 1, some 1) := by
  decide

end WorkerSlots

end Kiomq
