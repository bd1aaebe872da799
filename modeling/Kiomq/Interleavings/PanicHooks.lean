import Kiomq.Foundations.Parties
import Kiomq.Foundations.Runs
import Kiomq.Foundations.SaveRestore
import Kiomq.Worker.ProcessJob

/-!
# Overlapping calls of `BacktraceCatcher::catch`

Around its future, `catch` replaces the panic hook of the process by one that writes what it
captures to `PANIC_INFO`, and puts the old hook back at the end. Both the hook and
`PANIC_INFO` belong to the process, and the jobs of a worker run at the same time. A panic
is reported as that of its own job if it finds a capturing hook and no other panic waits to
be taken. The hook of the process comes back if the oldest call in progress ends last.
-/

namespace Kiomq

open Foundations

variable {T : Type}

/-- What a panic carries, by the types that `capture_panic_info` asks for. The message of a
formatted `panic!` is a `String`, which is none of them. -/
inductive PanicPayload
  | compactString (text : String)
  | staticStr (text : String)
  | other
  deriving DecidableEq, Repr

structure PanicLocation where
  file : String
  line : ℕ
  col : ℕ
  deriving DecidableEq, Repr

/-- The location that stands for a missing one. -/
instance : Inhabited PanicLocation := ⟨⟨"", 0, 0⟩⟩

def PanicLocation.display (location : PanicLocation) : String :=
  location.file ++ " at " ++ toString location.line ++ ":" ++ toString location.col

structure PanicHookInfo where
  payload : PanicPayload
  location : Option PanicLocation
  backtrace : Option (List String)
  deriving DecidableEq

structure CaughtPanicInfo where
  payload : String
  backtrace : Option (List String)
  deriving DecidableEq

instance : Inhabited CaughtPanicInfo :=
  ⟨⟨"Panic occurred but failed to capture backtrace", none⟩⟩

/-- The error that `catch` returns for a panic. -/
def CaughtPanicInfo.caught (info : CaughtPanicInfo) : CaughtError :=
  .panic info.payload info.backtrace

def PanicPayload.text : PanicPayload → String
  | .compactString text => text
  | .staticStr text => text
  | .other => "Box<Any>"

def capturePanicInfo (info : PanicHookInfo) : CaughtPanicInfo where
  payload := "Panic:" ++ info.payload.text ++ " :\n " ++ (info.location.getD default).display
  backtrace := info.backtrace

theorem capturePanicInfo_ne_default (info : PanicHookInfo) :
    (capturePanicInfo info).payload ≠ (default : CaughtPanicInfo).payload := by
  intro h
  -- the sixth character is a colon in one of them and a blank in the other
  have hsixth := congrArg (fun text : String => text.toList[5]?) h
  simp [capturePanicInfo, default] at hsixth

/-- The hook of the process: that of the standard library, one set by the application, or
the one that a call of `catch` sets. -/
inductive Hook
  | standard
  | custom (n : ℕ)
  | capture (call : ℕ)
  deriving DecidableEq, Repr

def Hook.captures : Hook → Bool
  | .capture _ => true
  | _ => false

/-- How the future of a call ends. -/
inductive FutureOutcome (T : Type)
  | value (value : T)
  | error (message : String) (backtrace : Option (List String))
  | panicked (info : PanicHookInfo)
  deriving DecidableEq

inductive CatchPc (T : Type)
  | taken
  | running
  | finished (outcome : FutureOutcome T)
  | restored (outcome : FutureOutcome T)
  | returned (outcome : FutureOutcome T) (result : Except CaughtError T)
  deriving DecidableEq

structure CatchCall (T : Type) where
  /-- `old_hook`. -/
  saved : Hook
  pc : CatchPc T
  deriving DecidableEq

namespace CatchCall

def outcome? (c : CatchCall T) : Option (FutureOutcome T) :=
  match c.pc with
  | .taken => none
  | .running => none
  | .finished outcome => some outcome
  | .restored outcome => some outcome
  | .returned outcome _ => some outcome

/-- The panic of the call that it has not taken from `PANIC_INFO` yet. -/
def pending? (c : CatchCall T) : Option PanicHookInfo :=
  match c.pc with
  | .finished (.panicked info) => some info
  | .restored (.panicked info) => some info
  | _ => none

/-- The future has ended, and the hook is not restored yet. -/
def hasFinished (c : CatchCall T) : Bool :=
  match c.pc with
  | .finished _ => true
  | _ => false

def hasRestored (c : CatchCall T) : Bool :=
  match c.pc with
  | .restored _ => true
  | .returned _ _ => true
  | _ => false

def hasReturned (c : CatchCall T) : Bool :=
  match c.pc with
  | .returned _ _ => true
  | _ => false

end CatchCall

/-- The process: its panic hook, `PANIC_INFO` and the calls in the order of their beginning. -/
structure PanicCells (T : Type) where
  hook : Hook
  panicInfo : Option CaughtPanicInfo
  calls : List (CatchCall T)

/-- A call begins, performs its next operation, or its future ends; somewhere else in the
process there is a panic, as in a blocking callback, whose future only returns an error. -/
inductive CatchAction (T : Type)
  | start
  | call (k : ℕ)
  | finish (k : ℕ) (outcome : FutureOutcome T)
  | panicElsewhere (info : PanicHookInfo)

namespace PanicCells

def init (hook : Hook) (panicInfo : Option CaughtPanicInfo) : PanicCells T :=
  ⟨hook, panicInfo, []⟩

def runHook (σ : PanicCells T) (info : PanicHookInfo) : Option CaughtPanicInfo :=
  if σ.hook.captures then some (capturePanicInfo info) else σ.panicInfo

/-- What a call returns, and what it leaves in `PANIC_INFO`. -/
def conclude (panicInfo : Option CaughtPanicInfo) :
    FutureOutcome T → Except CaughtError T × Option CaughtPanicInfo
  | .value value => (.ok value, panicInfo)
  | .error message backtrace => (.error (.error message backtrace), panicInfo)
  | .panicked _ => (.error (panicInfo.getD default).caught, none)

def setPc (σ : PanicCells T) (k : ℕ) (c : CatchCall T) (pc : CatchPc T) :
    List (CatchCall T) :=
  σ.calls.set k { c with pc }

def callStep (σ : PanicCells T) (k : ℕ) (c : CatchCall T) : Option (PanicCells T) :=
  match c.pc with
  | .taken => some { σ with hook := .capture k, calls := σ.setPc k c .running }
  | .running => none
  | .finished outcome =>
    some { σ with hook := c.saved, calls := σ.setPc k c (.restored outcome) }
  | .restored outcome =>
    let out := conclude σ.panicInfo outcome
    some { σ with panicInfo := out.2, calls := σ.setPc k c (.returned outcome out.1) }
  | .returned _ _ => none

def step (σ : PanicCells T) : CatchAction T → Option (PanicCells T)
  | .start =>
    -- `take_hook` leaves the standard hook behind
    some { σ with hook := .standard, calls := σ.calls ++ [⟨σ.hook, .taken⟩] }
  | .call k => σ.calls[k]?.bind (σ.callStep k)
  | .finish k outcome =>
    σ.calls[k]?.bind fun c =>
      match c.pc with
      | .running =>
        let calls := σ.setPc k c (.finished outcome)
        match outcome with
        | .panicked info => some { σ with panicInfo := σ.runHook info, calls }
        | _ => some { σ with calls }
      | _ => none
  | .panicElsewhere info => some { σ with panicInfo := σ.runHook info }

/-- A call whose future panicked has returned the information of this panic, which is not
the text for a missing one, or it can go on. -/
def Attributed (σ : PanicCells T) : Prop :=
  ∀ k c info, σ.calls[k]? = some c → c.outcome? = some (.panicked info) →
    (c.pc = .returned (.panicked info) (.error (capturePanicInfo info).caught) ∧
        (capturePanicInfo info).payload ≠ (default : CaughtPanicInfo).payload) ∨
      (c.hasReturned = false ∧ (σ.step (.call k)).isSome = true)

/-- A future panics only under a capturing hook, and there is no panic while a call has yet
to take the information of its own one. -/
def OnePanic (σ : PanicCells T) : CatchAction T → Prop
  | .finish _ (.panicked _) => σ.hook.captures = true ∧ ∀ c ∈ σ.calls, c.pending? = none
  | .panicElsewhere _ => ∀ c ∈ σ.calls, c.pending? = none
  | _ => True

/-- Once all calls have returned, the hook is the original one. -/
def HookRestored (original : Hook) (σ : PanicCells T) : Prop :=
  (∀ c ∈ σ.calls, c.hasReturned = true) → σ.hook = original

/-- If the oldest call in progress restores its hook, it is the only call in progress. -/
def OldestLast (σ : PanicCells T) : CatchAction T → Prop
  | .call k =>
    σ.calls[k]?.any CatchCall.hasFinished = true →
      (∀ c ∈ σ.calls.take k, c.hasRestored = true) →
        ∀ c ∈ σ.calls.drop (k + 1), c.hasRestored = true
  | _ => True

instance (σ : PanicCells T) (a : CatchAction T) : Decidable (σ.OnePanic a) := by
  cases a with
  | finish k outcome =>
    cases outcome with
    | panicked info =>
      unfold OnePanic
      simp only
      infer_instance
    | _ => exact isTrue trivial
  | panicElsewhere info =>
    unfold OnePanic
    simp only
    infer_instance
  | _ => exact isTrue trivial

instance (σ : PanicCells T) (a : CatchAction T) : Decidable (σ.OldestLast a) := by
  cases a with
  | call k =>
    unfold OldestLast
    simp only
    infer_instance
  | _ => exact isTrue trivial

/-! ### What a step does -/

theorem call_cases {σ τ : PanicCells T} {k : ℕ} (hstep : σ.step (.call k) = some τ) :
    ∃ c, σ.calls[k]? = some c ∧
      ((c.pc = .taken ∧ τ = { σ with hook := .capture k, calls := σ.setPc k c .running }) ∨
        (∃ outcome, c.pc = .finished outcome ∧
          τ = { σ with hook := c.saved, calls := σ.setPc k c (.restored outcome) }) ∨
        ∃ outcome, c.pc = .restored outcome ∧
          τ = { σ with
            panicInfo := (conclude σ.panicInfo outcome).2
            calls := σ.setPc k c (.returned outcome (conclude σ.panicInfo outcome).1) }) := by
  obtain ⟨c, hk, hc⟩ := Option.bind_eq_some_iff.mp hstep
  refine ⟨c, hk, ?_⟩
  unfold callStep at hc
  cases hpc : c.pc with
  | taken =>
    simp only [hpc, Option.some.injEq] at hc
    exact Or.inl ⟨rfl, hc.symm⟩
  | running => simp [hpc] at hc
  | finished outcome =>
    simp only [hpc, Option.some.injEq] at hc
    exact Or.inr (Or.inl ⟨outcome, rfl, hc.symm⟩)
  | restored outcome =>
    simp only [hpc, Option.some.injEq] at hc
    exact Or.inr (Or.inr ⟨outcome, rfl, hc.symm⟩)
  | returned outcome result => simp [hpc] at hc

theorem finish_cases {σ τ : PanicCells T} {k : ℕ} {outcome : FutureOutcome T}
    (hstep : σ.step (.finish k outcome) = some τ) :
    ∃ c, σ.calls[k]? = some c ∧ c.pc = .running ∧
      ((∃ info, outcome = .panicked info ∧
          τ = { σ with
            panicInfo := σ.runHook info, calls := σ.setPc k c (.finished (.panicked info)) }) ∨
        ((∀ info, outcome ≠ .panicked info) ∧
          τ = { σ with calls := σ.setPc k c (.finished outcome) })) := by
  obtain ⟨c, hk, hc⟩ := Option.bind_eq_some_iff.mp hstep
  refine ⟨c, hk, ?_⟩
  cases hpc : c.pc with
  | running =>
    simp only [hpc] at hc
    cases outcome with
    | panicked info => exact ⟨rfl, Or.inl ⟨info, rfl, (Option.some.inj hc).symm⟩⟩
    | value value => exact ⟨rfl, Or.inr ⟨by simp, (Option.some.inj hc).symm⟩⟩
    | error message backtrace => exact ⟨rfl, Or.inr ⟨by simp, (Option.some.inj hc).symm⟩⟩
  | _ => simp [hpc] at hc

/-! ### Whose panic `PANIC_INFO` holds -/

/-- At most one call has its panic in `PANIC_INFO`, and it is there; the calls that have
returned got their own. -/
structure PanicInv (σ : PanicCells T) : Prop where
  one : σ.calls.countP (fun c => c.pending?.isSome) ≤ 1
  held : ∀ c ∈ σ.calls, ∀ info, c.pending? = some info →
    σ.panicInfo = some (capturePanicInfo info)
  told : ∀ c ∈ σ.calls, ∀ info result, c.pc = .returned (.panicked info) result →
    result = .error (capturePanicInfo info).caught

theorem PanicInv.attributed {σ : PanicCells T} (h : σ.PanicInv) : σ.Attributed := by
  intro k c info hk hout
  unfold CatchCall.outcome? at hout
  cases hpc : c.pc with
  | taken => simp [hpc] at hout
  | running => simp [hpc] at hout
  | finished outcome => exact Or.inr ⟨by simp [CatchCall.hasReturned, hpc],
      by simp [step, hk, callStep, hpc]⟩
  | restored outcome => exact Or.inr ⟨by simp [CatchCall.hasReturned, hpc],
      by simp [step, hk, callStep, hpc]⟩
  | returned outcome result =>
    simp only [hpc, Option.some.injEq] at hout
    subst hout
    left
    refine ⟨?_, capturePanicInfo_ne_default info⟩
    rw [h.told c (List.mem_of_getElem? hk) info result hpc]

theorem PanicInv.move {σ : PanicCells T} (h : σ.PanicInv) {k : ℕ} {c : CatchCall T}
    (hk : σ.calls[k]? = some c) (hook : Hook) {pc : CatchPc T}
    (hpending : { c with pc }.pending? = c.pending?)
    (htold : ∀ info result, pc ≠ .returned (.panicked info) result) :
    PanicInv { σ with hook, calls := σ.setPc k c pc } where
  one := by
    rw [setPc, countP_set_eq hk (by rw [hpending])]
    exact h.one
  held := by
    apply forall_mem_set h.held
    rw [hpending]
    exact h.held c (List.mem_of_getElem? hk)
  told := by
    apply forall_mem_set h.told
    intro info result hpc
    exact absurd hpc (htold info result)

/-- The call that takes `PANIC_INFO` is the only one that waits for it. -/
theorem PanicInv.take {σ : PanicCells T} (h : σ.PanicInv) {k : ℕ} {c : CatchCall T}
    (hk : σ.calls[k]? = some c) {info : PanicHookInfo}
    (hpc : c.pc = .restored (.panicked info)) :
    PanicInv { σ with
      panicInfo := none
      calls := σ.setPc k c (.returned (.panicked info)
        (.error (σ.panicInfo.getD default).caught)) } := by
  have hpending : c.pending? = some info := by simp [CatchCall.pending?, hpc]
  have hself := h.held c (List.mem_of_getElem? hk) info hpending
  have hcount := countP_set_leave (p := fun c : CatchCall T => c.pending?.isSome)
    (b := { c with pc := .returned (.panicked info) (.error (σ.panicInfo.getD default).caught) })
    hk (by simp [hpending]) rfl
  have hone := h.one
  have hzero : (σ.setPc k c (.returned (.panicked info)
      (.error (σ.panicInfo.getD default).caught))).countP (fun c => c.pending?.isSome) = 0 := by
    unfold setPc
    omega
  constructor
  · exact hzero.le.trans (Nat.zero_le 1)
  · intro d hd other hother
    have := List.countP_eq_zero.mp hzero d hd
    simp [hother] at this
  · apply forall_mem_set h.told
    intro other result heq
    obtain ⟨hinfo, hresult⟩ := CatchPc.returned.inj heq
    obtain rfl := FutureOutcome.panicked.inj hinfo
    rw [← hresult, hself]
    rfl

theorem PanicInv.panic {σ : PanicCells T} (h : σ.PanicInv) {k : ℕ} {c : CatchCall T}
    (hk : σ.calls[k]? = some c) (info : PanicHookInfo) (hhook : σ.hook.captures = true)
    (hnone : ∀ c ∈ σ.calls, c.pending? = none) :
    PanicInv { σ with
      panicInfo := σ.runHook info, calls := σ.setPc k c (.finished (.panicked info)) } where
  one := by
    have hzero : σ.calls.countP (fun c => c.pending?.isSome) = 0 :=
      countP_eq_zero_of_forall fun d hd => by simp [hnone d hd]
    rw [setPc, countP_set_enter hk (by simp [hnone c (List.mem_of_getElem? hk)]) rfl, hzero]
  held := by
    apply forall_mem_set
    · intro d hd other hother
      rw [hnone d hd] at hother
      exact absurd hother (by simp)
    · intro other hother
      obtain rfl := Option.some.inj hother
      simp [runHook, hhook]
  told := by
    apply forall_mem_set h.told
    simp

theorem step_panicInv (σ : PanicCells T) (a : CatchAction T) (τ : PanicCells T)
    (h : σ.PanicInv) (hguard : σ.OnePanic a) (hstep : σ.step a = some τ) : τ.PanicInv := by
  cases a with
  | start =>
    obtain rfl := Option.some.inj hstep
    constructor
    · simpa [List.countP_append, CatchCall.pending?] using h.one
    · apply forall_mem_concat h.held
      simp [CatchCall.pending?]
    · apply forall_mem_concat h.told
      simp
  | call k =>
    obtain ⟨c, hk, ⟨hpc, rfl⟩ | ⟨outcome, hpc, rfl⟩ | ⟨outcome, hpc, rfl⟩⟩ := call_cases hstep
    · apply h.move hk
      · simp [CatchCall.pending?, hpc]
      · simp
    · apply h.move hk
      · cases outcome <;> simp [CatchCall.pending?, hpc]
      · simp
    · cases outcome with
      | panicked info => exact h.take hk hpc
      | value value =>
        apply h.move hk
        · simp [CatchCall.pending?, hpc]
        · simp
      | error message backtrace =>
        apply h.move hk
        · simp [CatchCall.pending?, hpc]
        · simp
  | finish k outcome =>
    obtain ⟨c, hk, hpc, ⟨info, rfl, rfl⟩ | ⟨hne, rfl⟩⟩ := finish_cases hstep
    · exact h.panic hk info hguard.1 hguard.2
    · apply h.move hk
      · cases outcome with
        | panicked info => exact absurd rfl (hne info)
        | value value => simp [CatchCall.pending?, hpc]
        | error message backtrace => simp [CatchCall.pending?, hpc]
      · simp
  | panicElsewhere info =>
    obtain rfl := Option.some.inj hstep
    refine ⟨h.one, ?_, h.told⟩
    intro c hc other hother
    rw [hguard c hc] at hother
    exact absurd hother (by simp)

/-- Any number of calls, whatever hook and `PANIC_INFO` they begin with: if there is a panic
only under a capturing hook and after the one before was taken, then every call reports its
own. -/
theorem attributed_of_onePanic (hook : Hook) (panicInfo : Option CaughtPanicInfo)
    (as : List (CatchAction T)) (h : Guarded step OnePanic (init hook panicInfo) as) :
    Always step Attributed (init hook panicInfo) as := by
  have hinv : (init hook panicInfo : PanicCells T).PanicInv :=
    ⟨by simp [init], by simp [init], by simp [init]⟩
  exact always_of_invariant step_panicInv (fun _ h => h.attributed) hinv h

def panicIn (file : String) : PanicHookInfo :=
  ⟨.staticStr "out of range", some ⟨file, 7, 5⟩, none⟩

/-- Two calls overlap and both of their futures panic, that of the first call after the
second call has returned. The hook that the second call puts back is that of the first. -/
def panicsInTurn : List (CatchAction ℕ) :=
  [.start, .call 0, .start, .call 1, .finish 1 (.panicked (panicIn "b.rs")), .call 1, .call 1,
    .finish 0 (.panicked (panicIn "a.rs")), .call 0, .call 0]

theorem panicsInTurn_attributed :
    (run step (init (.custom 1) none) panicsInTurn).map
          (fun σ => σ.calls.map CatchCall.hasReturned) = some [true, true] ∧
      Guarded step OnePanic (init (.custom 1) none) panicsInTurn ∧
      Always step Attributed (init (.custom 1) none) panicsInTurn :=
  ⟨by decide +kernel, by decide +kernel,
    attributed_of_onePanic (.custom 1) none panicsInTurn (by decide +kernel)⟩

/-- Both futures panic before either call takes its information, so that the first call
takes that of the second, and the second finds none. -/
def panicsTogether : List (CatchAction ℕ) :=
  [.start, .call 0, .start, .call 1, .finish 0 (.panicked (panicIn "a.rs")),
    .finish 1 (.panicked (panicIn "b.rs")), .call 0, .call 0, .call 1, .call 1]

theorem panicsTogether_not_attributed :
    (run step (init (.custom 1) none) panicsTogether).map
          (fun σ => σ.calls.map CatchCall.pc) =
        some [.returned (.panicked (panicIn "a.rs"))
            (.error (capturePanicInfo (panicIn "b.rs")).caught),
          .returned (.panicked (panicIn "b.rs")) (.error (default : CaughtPanicInfo).caught)] ∧
      ¬ Always step Attributed (init (.custom 1) none) panicsTogether := by
  refine ⟨by decide +kernel, ?_⟩
  apply not_always_of_run fun σ : PanicCells ℕ =>
    decide (σ.calls[1]?.map CatchCall.pc =
      some (.returned (.panicked (panicIn "b.rs")) (.error (default : CaughtPanicInfo).caught)))
  · intro σ hσ h
    obtain ⟨c, hk, hpc⟩ := Option.map_eq_some_iff.mp (of_decide_eq_true hσ)
    rcases h 1 c (panicIn "b.rs") hk (by simp [CatchCall.outcome?, hpc]) with
      ⟨hown, hdefault⟩ | ⟨hopen, -⟩
    · rw [hpc] at hown
      have hcaught := Except.error.inj (CatchPc.returned.inj hown).2
      exact hdefault (CaughtError.panic.inj hcaught).1.symm
    · simp [CatchCall.hasReturned, hpc] at hopen
  · decide +kernel

/-! ### Which hook is left -/

def savers (σ : PanicCells T) : List (Saver Hook) :=
  σ.calls.map fun c => ⟨c.saved, c.hasRestored⟩

def HookInv (original : Hook) (σ : PanicCells T) : Prop := Nested original σ.hook σ.savers

theorem savers_setPc (σ : PanicCells T) (hook : Hook) (panicInfo : Option CaughtPanicInfo)
    (k : ℕ) (c : CatchCall T) (pc : CatchPc T) :
    savers ⟨hook, panicInfo, σ.setPc k c pc⟩ =
      σ.savers.set k ⟨c.saved, { c with pc }.hasRestored⟩ := by
  simp [savers, setPc, List.map_set]

theorem savers_getElem? {σ : PanicCells T} {k : ℕ} {c : CatchCall T}
    (hk : σ.calls[k]? = some c) : σ.savers[k]? = some ⟨c.saved, c.hasRestored⟩ := by
  simp [savers, hk]

theorem savers_setPc_same {σ : PanicCells T} {hook : Hook} {panicInfo : Option CaughtPanicInfo}
    {k : ℕ} {c : CatchCall T} {pc : CatchPc T} (hk : σ.calls[k]? = some c)
    (hsame : { c with pc }.hasRestored = c.hasRestored) :
    savers ⟨hook, panicInfo, σ.setPc k c pc⟩ = σ.savers := by
  obtain ⟨hlt, hget⟩ := List.getElem?_eq_some_iff.mp (savers_getElem? hk)
  rw [savers_setPc, hsame, ← hget, List.set_getElem_self]

theorem HookInv.stay {original : Hook} {σ : PanicCells T} (h : HookInv original σ) {k : ℕ}
    {c : CatchCall T} {pc : CatchPc T} (hk : σ.calls[k]? = some c)
    (hsame : { c with pc }.hasRestored = c.hasRestored) (panicInfo : Option CaughtPanicInfo) :
    HookInv original ⟨σ.hook, panicInfo, σ.setPc k c pc⟩ := by
  unfold HookInv
  rw [savers_setPc_same hk hsame]
  exact h

theorem HookInv.hookRestored {original : Hook} {σ : PanicCells T} (h : HookInv original σ) :
    σ.HookRestored original := by
  intro hall
  apply h.idle
  intro s hs
  obtain ⟨c, hc, rfl⟩ := List.mem_map.mp hs
  have := hall c hc
  unfold CatchCall.hasReturned at this
  unfold CatchCall.hasRestored
  cases hpc : c.pc <;> simp [hpc] at this ⊢

theorem step_hookInv {original : Hook} (σ : PanicCells T) (a : CatchAction T)
    (τ : PanicCells T) (h : HookInv original σ) (hguard : σ.OldestLast a)
    (hstep : σ.step a = some τ) : HookInv original τ := by
  cases a with
  | start =>
    obtain rfl := Option.some.inj hstep
    have := h.save .standard
    simpa [HookInv, savers, CatchCall.hasRestored] using this
  | call k =>
    obtain ⟨c, hk, ⟨hpc, rfl⟩ | ⟨outcome, hpc, rfl⟩ | ⟨outcome, hpc, rfl⟩⟩ := call_cases hstep
    · have hopen : c.hasRestored = false := by simp [CatchCall.hasRestored, hpc]
      have hmem := List.mem_of_getElem? (savers_getElem? hk)
      unfold HookInv
      rw [savers_setPc_same hk (by simp [CatchCall.hasRestored, hpc])]
      exact h.write _ hmem hopen
    · have hopen : c.hasRestored = false := by simp [CatchCall.hasRestored, hpc]
      unfold HookInv
      rw [savers_setPc]
      apply h.restore (savers_getElem? hk) hopen
      intro hbefore
      have hafter := hguard (by simp [hk, CatchCall.hasFinished, hpc]) ?_
      · simpa [savers, ← List.map_drop] using hafter
      · simpa [savers, ← List.map_take] using hbefore
    · exact h.stay hk (by simp [CatchCall.hasRestored, hpc]) _
  | finish k outcome =>
    obtain ⟨c, hk, hpc, ⟨info, rfl, rfl⟩ | ⟨-, rfl⟩⟩ := finish_cases hstep
    · exact h.stay hk (by simp [CatchCall.hasRestored, hpc]) _
    · exact h.stay hk (by simp [CatchCall.hasRestored, hpc]) _
  | panicElsewhere info =>
    obtain rfl := Option.some.inj hstep
    exact h

/-- Any number of calls with any overlap: if the oldest call in progress restores its hook
last, then the hook is the original one as soon as all calls have returned. -/
theorem hookRestored_of_oldestLast (original : Hook) (panicInfo : Option CaughtPanicInfo)
    (as : List (CatchAction T)) (h : Guarded step OldestLast (init original panicInfo) as) :
    Always step (HookRestored original) (init original panicInfo) as :=
  always_of_invariant step_hookInv (fun _ h => h.hookRestored) (Nested.start original) h

/-- The second call ends within the first one. -/
def nestedCalls : List (CatchAction ℕ) :=
  [.start, .call 0, .start, .call 1, .finish 1 (.value 2), .call 1, .call 1,
    .finish 0 (.value 1), .call 0, .call 0]

theorem nestedCalls_hookRestored :
    (run step (init (.custom 1) none) nestedCalls).map
          (fun σ => (σ.calls.map CatchCall.hasReturned, σ.hook)) =
        some ([true, true], .custom 1) ∧
      Guarded step OldestLast (init (.custom 1) none) nestedCalls ∧
      Always step (HookRestored (.custom 1)) (init (.custom 1) none) nestedCalls :=
  ⟨by decide +kernel, by decide +kernel,
    hookRestored_of_oldestLast (.custom 1) none nestedCalls (by decide +kernel)⟩

/-- The call that began first ends first; the second one then restores the hook of the
first. -/
def overlappingCalls : List (CatchAction ℕ) :=
  [.start, .call 0, .start, .call 1, .finish 0 (.value 1), .call 0, .call 0,
    .finish 1 (.value 2), .call 1, .call 1]

theorem overlappingCalls_not_hookRestored :
    (run step (init (.custom 1) none) overlappingCalls).map
          (fun σ => (σ.calls.map CatchCall.hasReturned, σ.hook)) =
        some ([true, true], .capture 0) ∧
      ¬ Always step (HookRestored (.custom 1)) (init (.custom 1) none) overlappingCalls := by
  refine ⟨by decide +kernel, ?_⟩
  apply not_always_of_run fun σ : PanicCells ℕ =>
    decide ((∀ c ∈ σ.calls, c.hasReturned = true) ∧ σ.hook ≠ .custom 1)
  · intro σ hσ h
    obtain ⟨hall, hhook⟩ := of_decide_eq_true hσ
    exact hhook (h hall)
  · decide +kernel

end PanicCells

end Kiomq
