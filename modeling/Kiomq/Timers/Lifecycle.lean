import Kiomq.Foundations.Parties
import Kiomq.Foundations.Runs

/-!
# The life of a timer

A timer has a state, a token that is cancelled for good, and loop tasks, one for each call of
`run` that found the timer not running. A call reads the state or cancels the token first, and
then spawns its loop, stores a new state or notifies the loops; between any two of these the
loops and other calls go on. The loops test the token only at the head of the loop, and store the
state when they are woken.
-/

namespace Kiomq

open Foundations

inductive TimerState
  | stopped
  | active
  | paused
  deriving DecidableEq, Repr

/-- Where a loop task is. `pausing` has seen the pause and does not listen to the notifier yet,
`notified` has been woken up but not run yet, `leaving` has seen the cancellation while it was
waiting. -/
inductive TimerLoopPc
  | firstTick
  | head
  | checking
  | pausing
  | waiting
  | notified
  | leaving
  | woken
  | calling
  | ticking
  | ended
  deriving DecidableEq, Repr

/-- The loop is alive and can invoke the callback, given whether the token is cancelled. A loop
that has passed the test of the token can do so in any case. -/
def TimerLoopPc.canInvoke (cancelled : Bool) : TimerLoopPc → Bool
  | firstTick => !cancelled
  | head => !cancelled
  | ticking => !cancelled
  | checking => true
  | pausing => true
  | waiting => true
  | notified => true
  | woken => true
  | calling => true
  | leaving => false
  | ended => false

/-- What a call does after its first operation. -/
inductive TimerOp
  | spawn
  | storeActive
  | storePaused
  | storeStopped
  | notifyWaiters
  deriving DecidableEq, Repr

def TimerOp.next : TimerOp → List TimerOp
  | spawn => [storeActive]
  | _ => []

structure Timer where
  state : TimerState
  skipFirstTick : Bool
  cancelled : Bool
  tasks : List TimerLoopPc
  /-- The next operations of the calls that are under way. -/
  pending : List TimerOp
  /-- History: a call of `stop` has returned. -/
  stopped : Bool

/-- The calls, the next operation of one that is under way, and a step of a loop task;
`cancelFirst` says whether a loop that is both notified and cancelled sees the cancellation. -/
inductive TimerAction
  | shouldSkipFirstTick
  | run
  | pause
  | resume
  | stop
  | proceed (call : ℕ)
  | task (i : ℕ) (cancelFirst : Bool)
  deriving DecidableEq, Repr

namespace Timer

def new : Timer := ⟨.stopped, false, false, [], [], false⟩

def isRunning (t : Timer) : Bool := t.state = .active

def notify : TimerLoopPc → TimerLoopPc
  | .waiting => .notified
  | pc => pc

def spawned (t : Timer) : TimerLoopPc := if t.skipFirstTick then .head else .firstTick

def perform (t : Timer) : TimerOp → Timer
  | .spawn => { t with tasks := t.tasks ++ [t.spawned] }
  | .storeActive => { t with state := .active }
  | .storePaused => { t with state := .paused }
  | .storeStopped => { t with state := .stopped, stopped := true }
  | .notifyWaiters => { t with tasks := t.tasks.map notify }

def loopStep (t : Timer) (cancelFirst : Bool) : TimerLoopPc → Option (TimerState × TimerLoopPc)
  | .firstTick => some (t.state, .head)
  | .head => some (t.state, if t.cancelled then .ended else .checking)
  | .checking => some (t.state, if t.state = .paused then .pausing else .calling)
  | .pausing => some (t.state, .waiting)
  | .waiting => if t.cancelled then some (t.state, .leaving) else none
  | .notified => some (t.state, if t.cancelled && cancelFirst then .leaving else .woken)
  | .leaving => some (.stopped, .ended)
  | .woken => some (.active, .calling)
  | .calling => some (t.state, .ticking)
  | .ticking => some (t.state, .head)
  | .ended => none

def step (t : Timer) : TimerAction → Option Timer
  | .shouldSkipFirstTick => some { t with skipFirstTick := true }
  | .run =>
    if t.isRunning then some t else some { t with pending := t.pending ++ [.spawn] }
  | .pause =>
    if t.state = .paused then some t else some { t with pending := t.pending ++ [.storePaused] }
  | .resume =>
    if t.state = .paused then some { t with pending := t.pending ++ [.notifyWaiters] } else some t
  | .stop => some { t with cancelled := true, pending := t.pending ++ [.storeStopped] }
  | .proceed k =>
    t.pending[k]?.map fun op => { t.perform op with pending := t.pending.eraseIdx k ++ op.next }
  | .task i cancelFirst =>
    t.tasks[i]?.bind fun pc => (t.loopStep cancelFirst pc).map fun out =>
      { t with state := out.1, tasks := t.tasks.set i out.2 }

/-- At most one loop can invoke the callback, and a timer that was stopped stays so. -/
structure Sound (t : Timer) : Prop where
  single : t.tasks.countP (TimerLoopPc.canInvoke t.cancelled) ≤ 1
  halted : t.stopped = true → t.isRunning = false ∧ t.state = .stopped

/-- The operation keeps the order: `run` spawns its loop when no other can invoke the callback or
the token is cancelled, and after `stop` has returned neither `run` nor `pause` stores its state. -/
def OpOrderly (t : Timer) : TimerOp → Prop
  | .spawn => t.cancelled = true ∨ t.tasks.countP (TimerLoopPc.canInvoke t.cancelled) = 0
  | .storeActive => t.stopped = false
  | .storePaused => t.stopped = false
  | _ => True

/-- The operations of the calls keep the order, and after `stop` has returned no loop that was
woken stores its state. -/
def Orderly (t : Timer) : TimerAction → Prop
  | .proceed k => ∀ op, t.pending[k]? = some op → t.OpOrderly op
  | .task i _ => t.stopped = true → t.tasks[i]? ≠ some .woken
  | _ => True

theorem canInvoke_notify (cancelled : Bool) (pc : TimerLoopPc) :
    (notify pc).canInvoke cancelled = pc.canInvoke cancelled := by
  cases pc <;> rfl

theorem canInvoke_of_cancelled {pc : TimerLoopPc} (h : pc.canInvoke true = true) (c : Bool) :
    pc.canInvoke c = true := by
  cases pc <;> first | rfl | cases h

theorem countP_spawned (t : Timer) :
    (t.tasks ++ [t.spawned]).countP (TimerLoopPc.canInvoke t.cancelled) =
      t.tasks.countP (TimerLoopPc.canInvoke t.cancelled) + if t.cancelled then 0 else 1 := by
  have hspawned : t.spawned.canInvoke t.cancelled = !t.cancelled := by
    unfold spawned
    split_ifs <;> rfl
  rw [List.countP_append, List.countP_singleton, hspawned]
  cases t.cancelled <;> rfl

theorem canInvoke_of_loopStep {t : Timer} {cancelFirst : Bool} {pc : TimerLoopPc}
    {out : TimerState × TimerLoopPc} (h : t.loopStep cancelFirst pc = some out)
    (hout : out.2.canInvoke t.cancelled = true) : pc.canInvoke t.cancelled = true := by
  cases pc with
  | firstTick =>
    obtain rfl := Option.some.inj h
    exact hout
  | head =>
    obtain rfl := Option.some.inj h
    cases hc : t.cancelled
    · rfl
    · simp [hc, TimerLoopPc.canInvoke] at hout
  | ticking =>
    obtain rfl := Option.some.inj h
    exact hout
  | leaving =>
    obtain rfl := Option.some.inj h
    cases hout
  | ended => cases h
  | _ => rfl

theorem state_loopStep {t : Timer} {cancelFirst : Bool} {pc : TimerLoopPc}
    {out : TimerState × TimerLoopPc} (h : t.loopStep cancelFirst pc = some out)
    (hpc : pc ≠ .woken) : out.1 = t.state ∨ out.1 = .stopped := by
  cases pc with
  | woken => exact absurd rfl hpc
  | leaving =>
    obtain rfl := Option.some.inj h
    exact Or.inr rfl
  | waiting =>
    simp only [loopStep] at h
    split_ifs at h
    obtain rfl := Option.some.inj h
    exact Or.inl rfl
  | ended => cases h
  | _ =>
    obtain rfl := Option.some.inj h
    exact Or.inl rfl

theorem halted_of_stopped {t : Timer} (h : t.state = .stopped) :
    t.isRunning = false ∧ t.state = .stopped := by
  simp [isRunning, h]

theorem Sound.perform {t : Timer} (h : t.Sound) {op : TimerOp} (hop : t.OpOrderly op) :
    (t.perform op).Sound := by
  cases op with
  | spawn =>
    refine ⟨?_, h.halted⟩
    change (t.tasks ++ [t.spawned]).countP (TimerLoopPc.canInvoke t.cancelled) ≤ 1
    rw [t.countP_spawned]
    rcases hop with hcancelled | hnone
    · rw [if_pos hcancelled]
      exact h.single
    · rw [hnone]
      split_ifs <;> omega
  | storeActive => exact ⟨h.single, fun hs => by cases hop.symm.trans hs⟩
  | storePaused => exact ⟨h.single, fun hs => by cases hop.symm.trans hs⟩
  | storeStopped => exact ⟨h.single, fun _ => halted_of_stopped rfl⟩
  | notifyWaiters =>
    refine ⟨?_, h.halted⟩
    simp only [Timer.perform, List.countP_map, Function.comp_def, canInvoke_notify]
    exact h.single

/-- Against the order, a second loop starts or the timer leaves its final state at once. -/
theorem not_sound_perform {t : Timer} {op : TimerOp} (hop : ¬ t.OpOrderly op) :
    ¬ (t.perform op).Sound := by
  intro hsound
  cases op with
  | spawn =>
    obtain ⟨hcancelled, hsome⟩ := not_or.mp hop
    have hsingle : (t.tasks ++ [t.spawned]).countP (TimerLoopPc.canInvoke t.cancelled) ≤ 1 :=
      hsound.single
    rw [t.countP_spawned, if_neg hcancelled] at hsingle
    omega
  | storeActive => cases (hsound.halted (Bool.not_eq_false _ ▸ hop)).2
  | storePaused => cases (hsound.halted (Bool.not_eq_false _ ▸ hop)).2
  | _ => exact hop trivial

theorem step_sound (t : Timer) (a : TimerAction) (u : Timer) (h : t.Sound) (horderly : t.Orderly a)
    (hstep : t.step a = some u) : u.Sound := by
  cases a with
  | shouldSkipFirstTick =>
    obtain rfl := Option.some.inj hstep
    exact ⟨h.single, h.halted⟩
  | run =>
    simp only [step] at hstep
    split_ifs at hstep
    · obtain rfl := Option.some.inj hstep
      exact h
    · obtain rfl := Option.some.inj hstep
      exact ⟨h.single, h.halted⟩
  | pause =>
    simp only [step] at hstep
    split_ifs at hstep
    · obtain rfl := Option.some.inj hstep
      exact h
    · obtain rfl := Option.some.inj hstep
      exact ⟨h.single, h.halted⟩
  | resume =>
    simp only [step] at hstep
    split_ifs at hstep
    · obtain rfl := Option.some.inj hstep
      exact ⟨h.single, h.halted⟩
    · obtain rfl := Option.some.inj hstep
      exact h
  | stop =>
    obtain rfl := Option.some.inj hstep
    refine ⟨?_, h.halted⟩
    exact (List.countP_mono_left fun pc _ hpc => canInvoke_of_cancelled hpc t.cancelled).trans
      h.single
  | proceed k =>
    obtain ⟨op, hop, rfl⟩ := Option.map_eq_some_iff.mp hstep
    have hperform := h.perform (horderly op hop)
    exact ⟨hperform.single, hperform.halted⟩
  | task i cancelFirst =>
    obtain ⟨pc, hpc, hstep⟩ := Option.bind_eq_some_iff.mp hstep
    obtain ⟨out, hout, rfl⟩ := Option.map_eq_some_iff.mp hstep
    refine ⟨?_, fun hs => halted_of_stopped ?_⟩
    · exact (countP_set_le hpc (canInvoke_of_loopStep hout)).trans h.single
    · have hne : pc ≠ .woken := fun heq => horderly hs (heq ▸ hpc)
      rcases state_loopStep hout hne with hsame | hstopped
      · exact hsame.trans (h.halted hs).2
      · exact hstopped

theorem exists_not_sound (t : Timer) (a : TimerAction) (h : ¬ t.Orderly a) :
    ∃ u, t.step a = some u ∧ ¬ u.Sound := by
  cases a with
  | proceed k =>
    simp only [Orderly, not_forall] at h
    obtain ⟨op, hop, hbad⟩ := h
    refine ⟨_, by rw [step, hop]; rfl, fun hsound => ?_⟩
    exact not_sound_perform hbad ⟨hsound.single, hsound.halted⟩
  | task i cancelFirst =>
    simp only [Orderly, not_forall, not_not] at h
    obtain ⟨hstopped, hwoken⟩ := h
    refine ⟨_, by rw [step, hwoken]; rfl, fun hsound => ?_⟩
    cases (hsound.halted hstopped).2
  | _ => exact absurd trivial h

/-- In every run of calls and loop tasks, at most one loop can invoke the callback and a stopped
timer stays stopped, just if the calls and the loops keep to the order. -/
theorem sound_iff_orderly (actions : List TimerAction) :
    Always step Sound new actions ↔ Guarded step Orderly new actions :=
  always_iff_guarded (J := fun _ => True) (fun _ _ _ _ _ => trivial) step_sound (fun _ h => h)
    (fun t a _ h => exists_not_sound t a h) ⟨by simp [new], by simp [new]⟩ trivial actions

/-- `run`, `pause` and `run` again make two loops that invoke the callback; `run`, `stop` and
`run` again leave a stopped timer running; and `stop` and `pause` a stopped timer paused. -/
theorem timer_out_of_order :
    let running : List TimerAction := [.run, .proceed 0, .proceed 0]
    let twice : List TimerAction := running ++ [.pause, .proceed 0] ++ running
    let again : List TimerAction := running ++ [.stop, .proceed 0] ++ running
    let paused : List TimerAction := [.stop, .proceed 0, .pause, .proceed 0]
    (run step new twice).map (fun t => t.tasks.countP (TimerLoopPc.canInvoke t.cancelled)) =
        some 2 ∧
      (run step new again).map (fun t => (t.stopped, t.isRunning)) = some (true, true) ∧
      (run step new paused).map (fun t => (t.stopped, t.state)) = some (true, .paused) ∧
      ¬ Always step Sound new twice ∧ ¬ Always step Sound new again := by
  refine ⟨by decide, by decide, by decide, ?_, ?_⟩
  · apply not_always_of_run fun t => t.tasks.countP (TimerLoopPc.canInvoke t.cancelled) = 2
    · intro t hbad hsound
      have hsingle := hsound.single
      have htwo := of_decide_eq_true hbad
      omega
    · decide
  · apply not_always_of_run fun t => t.stopped && t.isRunning
    · intro t hbad hsound
      obtain ⟨hstopped, hrunning⟩ := Bool.and_eq_true_iff.mp hbad
      rw [(hsound.halted hstopped).1] at hrunning
      cases hrunning
    · decide

end Timer

end Kiomq
