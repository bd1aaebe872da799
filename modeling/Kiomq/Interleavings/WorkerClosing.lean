import Kiomq.Interleavings.WorkerLifecycle

/-!
# Closing a worker

A call of `close` that finds the worker running cancels its loop, waits for the end of the
task and removes the worker from the registry. It returns at once if the state is not
`Active`, as it is while the loop is parked, and if the worker is cancelled already, even
though another call may still be waiting for the loop.
-/

namespace Kiomq

open Foundations

def WorkerCells.closed (c : WorkerCells) : Bool := c.cancelled || decide (c.state = .closed)

namespace Lifecycle

/-- The worker reports that it is closed, its loop has ended, it is not in the registry, and
it has fetched no job since a call of `close` has returned. -/
structure Effective (σ : Lifecycle) : Prop where
  closed : σ.cells.closed = true
  ended : ∀ pc ∈ σ.loops, pc = .ended
  removed : σ.cells.registered = false
  fetched : σ.closedAt = some σ.cells.fetched

/-- Once a call of `close` on the started worker has returned, the worker is closed. -/
def CloseEffective (σ : Lifecycle) : Prop :=
  ∀ c ∈ σ.closes, c.started = true → c.pc = .returned → σ.Effective

/-- `run` is not called while the worker is parked. `close` is called only while the state
is `Active` and no other call has cancelled the worker, or after a call has returned. -/
def ClosedRunning (σ : Lifecycle) (a : LifeAction) : Prop :=
  σ.StartedOnce a ∧
    match a with
    | .closeCall k _ =>
      ∀ c ∈ σ.closes[k]?, c.started = true →
        (c.pc = .checking → σ.cells.state = .active ∨ σ.closedAt.isSome = true) ∧
        (c.pc = .checkingToken → σ.cells.cancelled = false ∨ σ.closedAt.isSome = true)
    | _ => True

instance (σ : Lifecycle) : (a : LifeAction) → Decidable (σ.ClosedRunning a)
  | .closeCall _ _ => by
    unfold ClosedRunning
    infer_instance
  | .run | .runCall _ | .close | .loop _ _ | .setPauseWorkers _ | .notify => by
    unfold ClosedRunning
    infer_instance

end Lifecycle

/-- What is known about a call of `close` on a started worker. -/
structure CloseCall.Fits (c : CloseCall) (mainTask : Option ℕ) (cancelled : Bool)
    (loops : List MainLoopPc) (closedAt : Option ℕ) : Prop where
  started : c.started = true → mainTask.isSome = true
  loading : c.started = true → c.pc = .loading → cancelled = true
  waiting : c.started = true → ∀ handle, c.pc = .waiting handle →
    cancelled = true ∧ handle.isSome = true
  removing : c.started = true → c.pc = .removing → cancelled = true ∧ ∀ pc ∈ loops, pc = .ended
  returned : c.started = true → c.pc = .returned → closedAt.isSome = true

theorem CloseCall.Fits.mono {c : CloseCall} {mainTask mainTask' : Option ℕ}
    {cancelled cancelled' : Bool} {loops loops' : List MainLoopPc} {closedAt closedAt' : Option ℕ}
    (h : c.Fits mainTask cancelled loops closedAt)
    (htask : mainTask.isSome = true → mainTask'.isSome = true)
    (hcancel : cancelled = true → cancelled' = true)
    (hended : (∀ pc ∈ loops, pc = .ended) → ∀ pc ∈ loops', pc = .ended)
    (hclosed : closedAt.isSome = true → closedAt'.isSome = true) :
    c.Fits mainTask' cancelled' loops' closedAt' where
  started := fun hs => htask (h.started hs)
  loading := fun hs hpc => hcancel (h.loading hs hpc)
  waiting := fun hs handle hpc => (h.waiting hs handle hpc).imp_left hcancel
  removing := fun hs hpc => (h.removing hs hpc).imp hcancel hended
  returned := fun hs hpc => hclosed (h.returned hs hpc)

namespace Lifecycle

/-- The state after a return: nothing is left that could fetch a job. -/
structure Gone (σ : Lifecycle) (n : ℕ) : Prop where
  cancelled : σ.cells.cancelled = true
  removed : σ.cells.registered = false
  ended : ∀ pc ∈ σ.loops, pc = .ended
  loops : σ.loops ≠ []
  fetched : σ.cells.fetched = n

theorem Gone.frame {σ τ : Lifecycle} {n : ℕ} (h : σ.Gone n)
    (hcancel : σ.cells.cancelled = true → τ.cells.cancelled = true)
    (hreg : σ.cells.registered = false → τ.cells.registered = false)
    (hended : (∀ pc ∈ σ.loops, pc = .ended) → ∀ pc ∈ τ.loops, pc = .ended)
    (hlen : τ.loops.length = σ.loops.length) (hfetched : τ.cells.fetched = σ.cells.fetched) :
    τ.Gone n where
  cancelled := hcancel h.cancelled
  removed := hreg h.removed
  ended := hended h.ended
  loops := List.ne_nil_of_length_pos (hlen ▸ List.length_pos_of_ne_nil h.loops)
  fetched := hfetched.trans h.fetched

structure ClosingInv (σ : Lifecycle) : Prop extends σ.Inv where
  task : ∀ handle, σ.mainTask = some handle → handle < σ.loops.length
  calls : ∀ c ∈ σ.closes, c.Fits σ.mainTask σ.cells.cancelled σ.loops σ.closedAt
  gone : ∀ n, σ.closedAt = some n → σ.Gone n

theorem ClosingInv.closeEffective {σ : Lifecycle} (h : σ.ClosingInv) : σ.CloseEffective := by
  intro c hc hs hpc
  obtain ⟨n, hn⟩ := Option.isSome_iff_exists.mp ((h.calls c hc).returned hs hpc)
  have hgone := h.gone n hn
  exact ⟨by simp [WorkerCells.closed, hgone.cancelled], hgone.ended, hgone.removed,
    by rw [hn, hgone.fetched]⟩

theorem ClosingInv.unstarted {σ : Lifecycle} (h : σ.ClosingInv) (hloops : σ.loops = []) :
    σ.mainTask = none ∧ σ.closedAt = none ∧ ∀ c ∈ σ.closes, c.started = false := by
  have htask : σ.mainTask = none := by
    cases hm : σ.mainTask with
    | none => rfl
    | some handle =>
      have := h.task handle hm
      simp [hloops] at this
  refine ⟨htask, ?_, fun c hc => ?_⟩
  · cases hn : σ.closedAt with
    | none => rfl
    | some n => exact absurd hloops (h.gone n hn).loops
  · cases hs : c.started with
    | false => rfl
    | true =>
      have := (h.calls c hc).started hs
      simp [htask] at this

theorem ended_of_notified {loops loops' : List MainLoopPc}
    (hloops : loops' = loops ∨ loops' = notifyWaiters loops) (h : ∀ pc ∈ loops, pc = .ended) :
    ∀ pc ∈ loops', pc = .ended := by
  intro pc hpc
  rcases hloops with rfl | rfl
  · exact h pc hpc
  · obtain ⟨before, hb, -, -, hend⟩ := mem_notifyWaiters hpc
    exact hend (h before hb)

/-- A loop that takes a step has not ended, so no call has returned. -/
theorem loop_closingInv {σ τ : Lifecycle} {i : ℕ} {answer : Bool} (h : σ.ClosingInv)
    (hstep : σ.step (.loop i answer) = some τ) : τ.ClosingInv := by
  have hinv := loop_inv h.toInv hstep
  obtain ⟨pc, hi, hstep⟩ := Option.bind_eq_some_iff.mp hstep
  obtain ⟨⟨cells, pc'⟩, hout, rfl⟩ := Option.map_eq_some_iff.mp hstep
  obtain ⟨hcancel, -, halive, -, -⟩ := loopStep_spec hout
  have hpc : pc ∈ σ.loops := List.mem_of_getElem? hi
  refine { hinv with task := ?_, calls := ?_, gone := ?_ }
  · simpa using h.task
  · intro c hc
    refine (h.calls c hc).mono id (fun hc => hcancel.trans hc) (fun hall => ?_) id
    exact absurd (hall pc hpc) halive
  · intro n hn
    exact absurd ((h.gone n hn).ended pc hpc) halive

theorem runStep_spec {σ τ : Lifecycle} {pc pc' : RunPc} (h : σ.runStep pc = some (τ, pc')) :
    τ.cells.cancelled = σ.cells.cancelled ∧ τ.cells.registered = σ.cells.registered ∧
      τ.cells.fetched = σ.cells.fetched ∧ τ.closes = σ.closes ∧ τ.closedAt = σ.closedAt ∧
      ((τ.loops = σ.loops ∧ τ.mainTask = σ.mainTask) ∨
        (∃ handle, pc = .storing handle ∧ τ.loops = σ.loops ∧ τ.mainTask = some handle) ∨
        (pc = .spawning ∧ τ.loops = σ.loops ++ [.starting] ∧ τ.mainTask = σ.mainTask)) := by
  cases pc with
  | exchanging | checking current | rechecking current =>
    simp only [runStep] at h
    split_ifs at h
    · obtain ⟨rfl, rfl⟩ := Prod.mk.inj (Option.some.inj h)
      simp
    · obtain ⟨rfl, rfl⟩ := Prod.mk.inj (Option.some.inj h)
      simp
  | spawning | storing handle =>
    obtain ⟨rfl, rfl⟩ := Prod.mk.inj (Option.some.inj h)
    simp
  | returned error => simp [runStep] at h

theorem run_closingInv {σ τ : Lifecycle} {k : ℕ} (h : σ.ClosingInv)
    (hguard : σ.StartedOnce (.runCall k)) (hstep : σ.step (.runCall k) = some τ) :
    τ.ClosingInv := by
  have hinv := run_inv h.toInv hguard hstep
  obtain ⟨r, hk, hstep⟩ := Option.bind_eq_some_iff.mp hstep
  obtain ⟨⟨ρ, pc'⟩, hout, rfl⟩ := Option.map_eq_some_iff.mp hstep
  obtain ⟨hcancel, hreg, hfetched, hcloses, hclosed, hcases⟩ := runStep_spec hout
  have hr := List.mem_of_getElem? hk
  have hgone : ρ.loops = σ.loops → ∀ n, ρ.closedAt = some n →
      Gone { ρ with runs := ρ.runs.set k { r with pc := pc' } } n := by
    intro hloops n hn
    apply (h.gone n (hclosed ▸ hn)).frame
    · exact fun hc => hcancel.trans hc
    · exact fun hr => hreg.trans hr
    · exact fun hall => hloops ▸ hall
    · exact congrArg List.length hloops
    · exact hfetched
  have hcalls : ρ.loops = σ.loops → (σ.mainTask.isSome = true → ρ.mainTask.isSome = true) →
      ∀ c ∈ ρ.closes, c.Fits ρ.mainTask ρ.cells.cancelled ρ.loops ρ.closedAt := by
    intro hloops htask c hc
    rw [hcloses] at hc
    rw [hloops, hclosed]
    exact (h.calls c hc).mono htask (fun hc => hcancel.trans hc) id id
  rcases hcases with ⟨hloops, htask⟩ | ⟨handle, hpc, hloops, htask⟩ | ⟨hpc, hloops, htask⟩
  · refine { hinv with task := ?_, calls := hcalls hloops ?_, gone := hgone hloops }
    · simpa only [htask, hloops] using h.task
    · rw [htask]
      exact id
  · refine { hinv with task := ?_, calls := hcalls hloops ?_, gone := hgone hloops }
    · intro handle' hh
      obtain rfl := Option.some.inj (htask.symm.trans hh)
      simpa only [hloops] using (h.runs r hr).storing handle hpc
    · simp [htask]
  · -- the loop is the first one, so the worker had not been started
    have hpos := countP_pos_of_getElem? hk (p := RunCall.isSpawning)
      (by simp [RunCall.isSpawning, hpc])
    have hnone : σ.loops = [] := by
      have := h.engines
      exact List.length_eq_zero_iff.mp (by omega)
    obtain ⟨hmain, hopen, hcold⟩ := h.unstarted hnone
    refine { hinv with task := ?_, calls := ?_, gone := ?_ }
    · intro handle hh
      rw [htask, hmain] at hh
      cases hh
    · intro c hc
      have hs := hcold c (hcloses ▸ hc)
      exact ⟨by simp [hs], by simp [hs], by simp [hs], by simp [hs], by simp [hs]⟩
    · intro n hn
      rw [hclosed, hopen] at hn
      cases hn

theorem closeStep_target {σ τ : Lifecycle} {answer : Bool} {pc pc' : ClosePc}
    (h : σ.closeStep answer pc = some (τ, pc')) :
    (pc' = .loading → τ.cells.cancelled = true) ∧
      (∀ handle, pc' = .waiting handle → pc = .loading ∧ handle = σ.mainTask) ∧
      (pc' = .removing → ∃ handle, pc = .waiting handle ∧ τ = σ ∧
        ∀ i ∈ handle, σ.loops[i]? = some .ended) ∧
      (pc' = .returned → (pc = .checking ∧ σ.cells.state ≠ .active) ∨
        (pc = .checkingToken ∧ σ.cells.cancelled = true) ∨
        (pc = .removing ∧ τ.cells.registered = false)) := by
  cases pc with
  | checking | checkingToken =>
    obtain ⟨rfl, rfl⟩ := Prod.mk.inj (Option.some.inj h)
    split_ifs with hif <;> simp [hif]
  | resuming =>
    simp only [closeStep] at h
    split_ifs at h
    · obtain ⟨rfl, rfl⟩ := Prod.mk.inj (Option.some.inj h)
      simp
    · obtain ⟨rfl, rfl⟩ := Prod.mk.inj (Option.some.inj h)
      simp
  | waiting handle =>
    cases handle with
    | none =>
      obtain ⟨rfl, rfl⟩ := Prod.mk.inj (Option.some.inj h)
      simp
    | some i =>
      simp only [closeStep] at h
      split_ifs at h with hend
      obtain ⟨rfl, rfl⟩ := Prod.mk.inj (Option.some.inj h)
      simp [hend]
  | returned => simp [closeStep] at h
  | _ =>
    obtain ⟨rfl, rfl⟩ := Prod.mk.inj (Option.some.inj h)
    simp

theorem isSome_noteReturn {σ : Lifecycle} (started : Bool) (pc : ClosePc)
    (h : σ.closedAt.isSome = true) : (σ.noteReturn started pc).isSome = true := by
  unfold noteReturn
  split_ifs
  · rfl
  · exact h

theorem isSome_noteReturn_returned {σ : Lifecycle} {started : Bool} {pc : ClosePc}
    (hs : started = true) (hpc : pc = .returned) : (σ.noteReturn started pc).isSome = true := by
  unfold noteReturn
  split_ifs with hfirst
  · rfl
  · exact Option.isSome_iff_ne_none.mpr fun hnone => hfirst ⟨hs, hpc, hnone⟩

theorem ClosedRunning.returned {σ τ : Lifecycle} {k : ℕ} {answer : Bool} {c : CloseCall}
    {pc' : ClosePc} (h : σ.ClosedRunning (.closeCall k answer)) (hk : σ.closes[k]? = some c)
    (hout : σ.closeStep answer c.pc = some (τ, pc')) (hs : c.started = true)
    (hpc : pc' = .returned) :
    σ.closedAt.isSome = true ∨ (c.pc = .removing ∧ τ.cells.registered = false) := by
  obtain ⟨hcheck, htoken⟩ := h.2 c hk hs
  rcases (closeStep_target hout).2.2.2 hpc with ⟨hfrom, hnot⟩ | ⟨hfrom, hcan⟩ | hfrom
  · exact Or.inl ((hcheck hfrom).resolve_left hnot)
  · exact Or.inl ((htoken hfrom).resolve_left (by simp [hcan]))
  · exact Or.inr hfrom

theorem ClosingInv.ended_of_waiting {σ : Lifecycle} (h : σ.ClosingInv) {c : CloseCall}
    (hc : c ∈ σ.closes) (hs : c.started = true) {handle : Option ℕ} (hpc : c.pc = .waiting handle)
    (hend : ∀ i ∈ handle, σ.loops[i]? = some .ended) :
    σ.cells.cancelled = true ∧ ∀ pc ∈ σ.loops, pc = .ended := by
  obtain ⟨hcancel, hsome⟩ := (h.calls c hc).waiting hs handle hpc
  obtain ⟨i, rfl⟩ := Option.isSome_iff_exists.mp hsome
  obtain ⟨-, hloops⟩ := h.loops_eq (hend i rfl)
  exact ⟨hcancel, by simp [hloops]⟩

theorem close_closingInv {σ τ : Lifecycle} {k : ℕ} {answer : Bool} (h : σ.ClosingInv)
    (hguard : σ.ClosedRunning (.closeCall k answer))
    (hstep : σ.step (.closeCall k answer) = some τ) : τ.ClosingInv := by
  have hinv := step_inv σ _ τ h.toInv hguard.1 hstep
  obtain ⟨c, hk, hstep⟩ := Option.bind_eq_some_iff.mp hstep
  obtain ⟨⟨ρ, pc'⟩, hout, rfl⟩ := Option.map_eq_some_iff.mp hstep
  have hc := List.mem_of_getElem? hk
  have hfits := h.calls c hc
  obtain ⟨hstate, hfetched, hcancel, -, hloops, htask, hcloses, hclosed, hreg⟩ :=
    closeStep_spec hout
  obtain ⟨hload, hwait, hremove, -⟩ := closeStep_target hout
  have hlate := hguard.returned hk hout
  have hlen := length_of_notified hloops
  have hended := ended_of_notified hloops
  have hnote : σ.closedAt.isSome = true → (ρ.noteReturn c.started pc').isSome = true := by
    intro hsome
    exact isSome_noteReturn _ _ (hclosed ▸ hsome)
  refine { hinv with task := ?_, calls := ?_, gone := ?_ }
  · simpa only [htask, hlen] using h.task
  · rw [htask, hcloses]
    apply forall_mem_set
    · intro d hd
      exact (h.calls d hd).mono id hcancel hended hnote
    · constructor
      · exact hfits.started
      · exact fun _ hpc => hload hpc
      · intro hs handle hpc
        obtain ⟨hfrom, rfl⟩ := hwait handle hpc
        exact ⟨hcancel (hfits.loading hs hfrom), hfits.started hs⟩
      · intro hs hpc
        obtain ⟨handle, hfrom, rfl, hend⟩ := hremove hpc
        exact h.ended_of_waiting hc hs hfrom hend
      · intro hs hpc
        rcases hlate hs hpc with hsome | -
        · exact hnote hsome
        · exact isSome_noteReturn_returned hs hpc
  · intro n hn
    unfold noteReturn at hn
    simp only at hn
    split_ifs at hn with hfirst
    · obtain ⟨hs, hpc, hopen⟩ := hfirst
      obtain rfl := Option.some.inj hn
      rcases hlate hs hpc with hsome | ⟨hfrom, hrem⟩
      · rw [← hclosed, hopen] at hsome
        exact absurd hsome (by simp)
      · obtain ⟨hcan, hend⟩ := hfits.removing hs hfrom
        obtain ⟨handle, hmain⟩ := Option.isSome_iff_exists.mp (hfits.started hs)
        have hpos := h.task handle hmain
        constructor
        · exact hcancel hcan
        · exact hrem
        · exact hended hend
        · exact List.ne_nil_of_length_pos (by rw [hlen]; omega)
        · rfl
    · exact (h.gone n (hclosed ▸ hn)).frame hcancel hreg hended hlen hfetched

theorem step_closingInv (σ : Lifecycle) (a : LifeAction) (τ : Lifecycle) (h : σ.ClosingInv)
    (hguard : σ.ClosedRunning a) (hstep : σ.step a = some τ) : τ.ClosingInv := by
  have hinv := step_inv σ a τ h.toInv hguard.1 hstep
  cases a with
  | run =>
    obtain rfl := Option.some.inj hstep
    exact { hinv with task := h.task, calls := h.calls, gone := fun n hn =>
      (h.gone n hn).frame id id id rfl rfl }
  | runCall k => exact run_closingInv h hguard.1 hstep
  | close =>
    obtain rfl := Option.some.inj hstep
    refine { hinv with task := h.task, calls := ?_, gone := fun n hn =>
      (h.gone n hn).frame id id id rfl rfl }
    apply forall_mem_concat h.calls
    exact ⟨id, by simp, by simp, by simp, by simp⟩
  | closeCall k answer => exact close_closingInv h hguard hstep
  | loop i answer => exact loop_closingInv h hstep
  | setPauseWorkers flag =>
    obtain rfl := Option.some.inj hstep
    exact { hinv with task := h.task, calls := h.calls, gone := fun n hn =>
      (h.gone n hn).frame id id id rfl rfl }
  | notify =>
    obtain rfl := Option.some.inj hstep
    refine { hinv with task := ?_, calls := ?_, gone := ?_ }
    · simpa only [length_of_notified (Or.inr rfl)] using h.task
    · intro c hc
      exact (h.calls c hc).mono id id (ended_of_notified (Or.inr rfl)) id
    · intro n hn
      exact (h.gone n hn).frame id id (ended_of_notified (Or.inr rfl))
        (length_of_notified (Or.inr rfl)) rfl

theorem start_closingInv : ({} : Lifecycle).ClosingInv :=
  { start_inv with task := by simp, calls := by simp, gone := by simp }

/-- Any number of calls, in any order with the steps of the loop: a worker that is started
once and closed while it is running stays closed from the return of `close` on. -/
theorem closeEffective_of_closedRunning (as : List LifeAction)
    (h : Guarded step ClosedRunning {} as) : Always step CloseEffective {} as :=
  always_of_invariant step_closingInv (fun _ h => h.closeEffective) start_closingInv h

/-- A worker is started, fetches a job and is closed while it is running; a second call of
`close` returns at once. -/
def closedRun : List LifeAction :=
  [.run, .runCall 0, .runCall 0, .runCall 0, .loop 0 true, .loop 0 true, .loop 0 true,
    .loop 0 true, .loop 0 true, .loop 0 true, .close, .closeCall 0 true, .closeCall 0 true,
    .closeCall 0 true, .closeCall 0 true, .closeCall 0 true, .closeCall 0 true, .closeCall 0 true,
    .loop 0 true, .loop 0 true, .loop 0 true, .loop 0 true, .closeCall 0 true, .closeCall 0 true,
    .close, .closeCall 1 true]

theorem closedRun_effective :
    (Foundations.run step {} closedRun).map (fun σ =>
        (σ.closes.map CloseCall.pc, σ.loops, σ.cells.fetched)) =
        some ([.returned, .returned], [.ended], 1) ∧
      Guarded step ClosedRunning {} closedRun ∧ Always step CloseEffective {} closedRun :=
  ⟨by decide +kernel, by decide +kernel, closeEffective_of_closedRunning closedRun
    (by decide +kernel)⟩

/-- `close` is called while the loop is parked; later the worker is notified. -/
def closedWhileParked : List LifeAction :=
  [.run, .runCall 0, .runCall 0, .runCall 0, .setPauseWorkers true, .loop 0 true, .loop 0 true,
    .loop 0 true, .loop 0 true, .loop 0 true, .close, .closeCall 0 true, .notify,
    .setPauseWorkers false, .loop 0 true, .loop 0 true, .loop 0 true, .loop 0 true]

/-- The call has returned, and the worker is not closed, is registered and fetches a job. -/
theorem closedWhileParked_not_effective :
    (Foundations.run step {} closedWhileParked).map (fun σ =>
        (σ.closes, σ.cells.closed, σ.loops)) =
        some ([⟨true, .returned⟩], false, [.dispatching]) ∧
      (Foundations.run step {} closedWhileParked).map (fun σ =>
        (σ.cells.registered, σ.closedAt, σ.cells.fetched)) = some (true, some 0, 1) ∧
      ¬ Always step CloseEffective {} closedWhileParked := by
  refine ⟨by decide +kernel, by decide +kernel, ?_⟩
  apply not_always_of_run fun σ =>
    decide (σ.closes = [⟨true, .returned⟩] ∧ σ.cells.registered = true)
  · intro σ hσ h
    obtain ⟨hcloses, hreg⟩ := of_decide_eq_true hσ
    have heff := h ⟨true, .returned⟩ (by simp [hcloses]) rfl rfl
    rw [heff.removed] at hreg
    exact absurd hreg (by decide)
  · decide +kernel

end Lifecycle

end Kiomq
