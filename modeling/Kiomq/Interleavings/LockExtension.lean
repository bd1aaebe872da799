import Kiomq.Foundations.Parties
import Kiomq.Foundations.Runs
import Kiomq.Queue.LockOwnership

/-!
# Extending a lock that another worker takes

`extend_lock` reads the token of the lock, compares it with its own and writes the lock
anew, by separate calls of the store. Between the first and the last of them the lock may
expire and another worker may acquire the job. The write then replaces the lock of that
worker while it is live. This does not happen if no worker acquires the lock while a call
of another token is past its reading of the lock and before its write.
-/

namespace Kiomq

open Foundations InMemoryStore

variable {D R P : Type}

inductive ExtendPc
  | reading
  | comparing (previous : Option JobToken)
  | extending
  | unstalling
  | returned (extended : Bool)
  deriving DecidableEq, Repr

structure ExtendCall where
  token : JobToken
  lockDuration : ℕ
  pc : ExtendPc
  deriving DecidableEq

/-- The call has found its own token and has not written the lock yet. -/
def ExtendCall.pending (c : ExtendCall) : Bool :=
  decide (c.pc = .comparing (some c.token) ∨ c.pc = .extending)

/-- One job, and the calls of `extend_lock` for it. -/
structure LockRun (D R P : Type) where
  store : InMemoryStore D R P
  jobId : ℕ
  now : ℕ
  calls : List ExtendCall

/-- A call of `extend_lock` begins, or goes on; a worker takes the lock as
`prepare_job_for_processing` does; time passes. -/
inductive LockAction
  | extend (token : JobToken) (lockDuration : ℕ)
  | call (k : ℕ)
  | acquire (token : JobToken) (lockDuration : ℕ)
  | wait (ms : ℕ)

namespace LockRun

def start (store : InMemoryStore D R P) (jobId now : ℕ) : LockRun D R P := ⟨store, jobId, now, []⟩

/-- The next operation of a call, with the store after it. -/
def callStep (store : InMemoryStore D R P) (jobId now : ℕ) (c : ExtendCall) :
    Option (InMemoryStore D R P × ExtendPc) :=
  match c.pc with
  | .reading =>
    let previous := store.getToken jobId now
    some (previous.2, .comparing previous.1)
  | .comparing previous =>
    some (store, if previous = some c.token then .extending else .returned false)
  | .extending =>
    some (store.setLock (.lock jobId) (some c.token) c.lockDuration now, .unstalling)
  | .unstalling => some (store.removeItem .stalled jobId, .returned true)
  | .returned _ => none

def step (σ : LockRun D R P) : LockAction → Option (LockRun D R P)
  | .extend token lockDuration =>
    some { σ with calls := σ.calls ++ [⟨token, lockDuration, .reading⟩] }
  | .call k =>
    σ.calls[k]?.bind fun c =>
      (callStep σ.store σ.jobId σ.now c).map fun out =>
        { σ with store := out.1, calls := σ.calls.set k { c with pc := out.2 } }
  | .acquire token lockDuration =>
    some { σ with store := σ.store.setLock (.lock σ.jobId) (some token) lockDuration σ.now }
  | .wait ms => some { σ with now := σ.now + ms }

def callAlone (jobId now : ℕ) (x : InMemoryStore D R P × ExtendCall) (_ : Unit) :
    Option (InMemoryStore D R P × ExtendCall) :=
  (callStep x.1 jobId now x.2).map fun out => (out.1, { x.2 with pc := out.2 })

/-- Without interruption the operations of a call compose to `extend_lock`. -/
theorem callAlone_extendLock (q : Queue D R P) (jobId lockDuration : ℕ) (token : JobToken)
    (clock : Clock) :
    ∃ k extended store,
      run (callAlone jobId clock.instant) (q.store, ⟨token, lockDuration, .reading⟩)
          (List.replicate k ()) = some (store, ⟨token, lockDuration, .returned extended⟩) ∧
        q.extendLock jobId lockDuration token clock = (.ok extended, { q with store }) := by
  by_cases hheld : (q.store.getToken jobId clock.instant).1 = some token
  · refine ⟨4, true, ((q.store.getToken jobId clock.instant).2.setLock (.lock jobId) (some token)
      lockDuration clock.instant).removeItem .stalled jobId, ?_, ?_⟩
    · simp [run, callAlone, callStep, List.replicate, hheld]
    · simp [Queue.extendLock, hheld]
  · refine ⟨2, false, (q.store.getToken jobId clock.instant).2, ?_, ?_⟩
    · simp [run, callAlone, callStep, List.replicate, hheld]
    · simp [Queue.extendLock, hheld]

/-- The worker whose lock is live. -/
def holder (σ : LockRun D R P) : Option JobToken := (σ.store.getToken σ.jobId σ.now).1

/-- No step of a call replaces the live lock of another token by its own. -/
def NoTheft (σ : LockRun D R P) : Prop :=
  ∀ k c τ held, σ.calls[k]? = some c → σ.step (.call k) = some τ → σ.holder = some held →
    held ≠ c.token → τ.holder ≠ some c.token

/-- A lock is acquired only while no call of another token is between its reading of the
lock and its write. -/
def Undisturbed (σ : LockRun D R P) : LockAction → Prop
  | .acquire token _ => ∀ c ∈ σ.calls, c.pending = true → c.token = token
  | _ => True

instance (σ : LockRun D R P) (a : LockAction) : Decidable (σ.Undisturbed a) := by
  cases a with
  | acquire token lockDuration =>
    unfold Undisturbed
    simp only
    infer_instance
  | _ => exact isTrue trivial

/-! ### The holder of the lock -/

theorem getToken_getToken (s : InMemoryStore D R P) (id now : ℕ) :
    ((s.getToken id now).2.getToken id now).1 = (s.getToken id now).1 := by
  simp only [getToken, TimedMap.get]
  cases hget : s.locks.inner.get? (.lock id) with
  | none => simp [hget]
  | some found =>
    cases hexp : found.isExpired now with
    | true => simp [TimedMap.remove, OrderedMap.get?_remove, hexp]
    | false => simp [hget, hexp]

/-- After a write the lock is held by the writer, or by nobody if it has no duration. -/
theorem eq_of_getToken_setLock {s : InMemoryStore D R P} {id lockDuration now instant : ℕ}
    {token held : JobToken}
    (h : ((s.setLock (.lock id) (some token) lockDuration now).getToken id instant).1 =
      some held) : held = token := by
  obtain ⟨found, hmem, -, hget⟩ := (Queue.getToken_fst_iff _ _ _ _).mp h
  rw [setLock, TimedMap.get?_inner_insertExpirable, if_pos rfl] at hmem
  obtain rfl := Option.some.inj hmem
  split_ifs at hget
  · exact (Lock.token.inj hget).symm
  · exact (Lock.token.inj hget).symm

theorem getToken_of_later {s : InMemoryStore D R P} {id now instant : ℕ} {held : JobToken}
    (hle : now ≤ instant) (h : (s.getToken id instant).1 = some held) :
    (s.getToken id now).1 = some held := by
  obtain ⟨found, hmem, hexp, hget⟩ := (Queue.getToken_fst_iff _ _ _ _).mp h
  refine (Queue.getToken_fst_iff _ _ _ _).mpr ⟨found, hmem, ?_, hget⟩
  cases found with
  | constant value => rfl
  | expirable value expiresAt =>
    simp only [ExpiryValue.isExpired, decide_eq_false_iff_not] at hexp ⊢
    omega

/-! ### What pending calls rely on -/

/-- The pending calls have one token, and a live lock is of this token. -/
structure Inv (σ : LockRun D R P) : Prop where
  same : ∀ c ∈ σ.calls, ∀ d ∈ σ.calls, c.pending = true → d.pending = true → c.token = d.token
  held : ∀ c ∈ σ.calls, c.pending = true → ∀ token, σ.holder = some token → token = c.token

theorem holder_call {σ τ : LockRun D R P} {k : ℕ} {c : ExtendCall} (hk : σ.calls[k]? = some c)
    (hstep : σ.step (.call k) = some τ) :
    ∃ pc, τ.calls = σ.calls.set k { c with pc } ∧
      ((τ.holder = σ.holder ∧
          ({ c with pc }.pending = true → c.pending = true ∨ σ.holder = some c.token)) ∨
        (c.pc = .extending ∧ pc = .unstalling ∧
          ∀ token, τ.holder = some token → token = c.token)) := by
  simp only [step, hk, Option.bind_some] at hstep
  obtain ⟨⟨store, pc⟩, hout, rfl⟩ := Option.map_eq_some_iff.mp hstep
  refine ⟨pc, rfl, ?_⟩
  unfold callStep at hout
  cases hpc : c.pc with
  | reading =>
    simp only [hpc, Option.some.injEq, Prod.mk.injEq] at hout
    obtain ⟨rfl, rfl⟩ := hout
    left
    refine ⟨getToken_getToken σ.store σ.jobId σ.now, fun hpending => Or.inr ?_⟩
    simpa [ExtendCall.pending, holder] using hpending
  | comparing previous =>
    simp only [hpc, Option.some.injEq, Prod.mk.injEq] at hout
    obtain ⟨rfl, rfl⟩ := hout
    left
    refine ⟨rfl, fun hpending => Or.inl ?_⟩
    split_ifs at hpending with hprev
    · simp [ExtendCall.pending, hpc, hprev]
    · simp [ExtendCall.pending] at hpending
  | extending =>
    simp only [hpc, Option.some.injEq, Prod.mk.injEq] at hout
    obtain ⟨rfl, rfl⟩ := hout
    exact Or.inr ⟨rfl, rfl, fun token h => eq_of_getToken_setLock h⟩
  | unstalling =>
    simp only [hpc, Option.some.injEq, Prod.mk.injEq] at hout
    obtain ⟨rfl, rfl⟩ := hout
    exact Or.inl ⟨rfl, fun hpending => by simp [ExtendCall.pending] at hpending⟩
  | returned extended => simp [hpc] at hout

theorem Inv.noTheft {σ : LockRun D R P} (h : σ.Inv) : σ.NoTheft := by
  intro k c τ held hk hstep hheld hne
  obtain ⟨pc, -, ⟨hkeep, -⟩ | ⟨hext, -, -⟩⟩ := holder_call hk hstep
  · rw [hkeep, hheld]
    simpa using hne
  · have hpending : c.pending = true := by simp [ExtendCall.pending, hext]
    exact absurd (h.held c (List.mem_of_getElem? hk) hpending held hheld) hne

/-- A step that leaves the calls, after which the lock is held by nobody but a token that
fits all pending calls. -/
theorem Inv.frame {σ τ : LockRun D R P} (h : σ.Inv) (hcalls : τ.calls = σ.calls)
    (hheld : ∀ token, τ.holder = some token →
      σ.holder = some token ∨ ∀ c ∈ σ.calls, c.pending = true → c.token = token) : τ.Inv where
  same := by
    rw [hcalls]
    exact h.same
  held := by
    rw [hcalls]
    intro c hc hpending token htoken
    rcases hheld token htoken with hbefore | hfit
    · exact h.held c hc hpending token hbefore
    · exact (hfit c hc hpending).symm

theorem call_inv {σ τ : LockRun D R P} {k : ℕ} (h : σ.Inv)
    (hstep : σ.step (.call k) = some τ) : τ.Inv := by
  obtain ⟨c, hk, -⟩ := Option.bind_eq_some_iff.mp hstep
  have hc := List.mem_of_getElem? hk
  obtain ⟨pc, hcalls, ⟨hkeep, hpend⟩ | ⟨hext, rfl, hwritten⟩⟩ := holder_call hk hstep
  · -- the moved call is pending only if it was so, or has just read its own token
    have hsame : { c with pc }.pending = true → ∀ d ∈ σ.calls, d.pending = true →
        c.token = d.token := by
      intro hp d hd hdp
      rcases hpend hp with hcp | hown
      · exact h.same c hc d hd hcp hdp
      · exact h.held d hd hdp c.token hown
    constructor
    · rw [hcalls]
      intro a ha b hb hap hbp
      rcases List.mem_or_eq_of_mem_set ha with ha | rfl <;>
        rcases List.mem_or_eq_of_mem_set hb with hb | rfl
      · exact h.same a ha b hb hap hbp
      · exact (hsame hbp a ha hap).symm
      · exact hsame hap b hb hbp
      · rfl
    · rw [hcalls, hkeep]
      intro a ha hap token htoken
      rcases List.mem_or_eq_of_mem_set ha with ha | rfl
      · exact h.held a ha hap token htoken
      · rcases hpend hap with hcp | hown
        · exact h.held c hc hcp token htoken
        · exact Option.some.inj (htoken.symm.trans hown)
  · -- the call was pending, so its token is that of all pending calls
    have hcp : c.pending = true := by simp [ExtendCall.pending, hext]
    have hdone : ¬ { c with pc := ExtendPc.unstalling }.pending = true := by
      simp [ExtendCall.pending]
    constructor
    · rw [hcalls]
      intro a ha b hb hap hbp
      rcases List.mem_or_eq_of_mem_set ha with ha | rfl
      · rcases List.mem_or_eq_of_mem_set hb with hb | rfl
        · exact h.same a ha b hb hap hbp
        · exact absurd hbp hdone
      · exact absurd hap hdone
    · rw [hcalls]
      intro a ha hap token htoken
      rcases List.mem_or_eq_of_mem_set ha with ha | rfl
      · exact (hwritten token htoken).trans (h.same c hc a ha hcp hap)
      · exact absurd hap hdone

theorem step_inv (σ : LockRun D R P) (a : LockAction) (τ : LockRun D R P) (h : σ.Inv)
    (hguard : σ.Undisturbed a) (hstep : σ.step a = some τ) : τ.Inv := by
  cases a with
  | extend token lockDuration =>
    obtain rfl := Option.some.inj hstep
    have hnew : ¬ ExtendCall.pending ⟨token, lockDuration, .reading⟩ = true := by
      simp [ExtendCall.pending]
    have hold : ∀ c ∈ σ.calls ++ [⟨token, lockDuration, .reading⟩], c.pending = true →
        c ∈ σ.calls := by
      intro c hc hpending
      rcases List.mem_append.mp hc with hc | hc
      · exact hc
      · obtain rfl := List.mem_singleton.mp hc
        exact absurd hpending hnew
    constructor
    · intro c hc d hd hcp hdp
      exact h.same c (hold c hc hcp) d (hold d hd hdp) hcp hdp
    · intro c hc hcp
      exact h.held c (hold c hc hcp) hcp
  | call k => exact call_inv h hstep
  | acquire token lockDuration =>
    obtain rfl := Option.some.inj hstep
    apply Inv.frame h
    · rfl
    · intro held hheld
      obtain rfl := eq_of_getToken_setLock hheld
      exact Or.inr hguard
  | wait ms =>
    obtain rfl := Option.some.inj hstep
    apply Inv.frame h
    · rfl
    · intro held hheld
      exact Or.inl (getToken_of_later (Nat.le_add_right _ _) hheld)

/-- Any number of calls, of any tokens and durations: in a run whose acquisitions are not
made in the middle of a call of another token, no call takes a live lock away. -/
theorem noTheft_of_undisturbed (store : InMemoryStore D R P) (jobId now : ℕ)
    (as : List LockAction) (h : Guarded step Undisturbed (start store jobId now) as) :
    Always step NoTheft (start store jobId now) as := by
  have hinv : (start store jobId now).Inv := ⟨by simp [start], by simp [start]⟩
  exact always_of_invariant step_inv (fun _ h => h.noTheft) hinv h

/-- Worker 1 extends its lock of 30 milliseconds at time 20; at time 60 the lock has expired
and worker 2 takes it, so that the next call of worker 1 finds another token. -/
def extendedThenTaken : List LockAction :=
  [.acquire ⟨1, 1, 1⟩ 30, .wait 20, .extend ⟨1, 1, 1⟩ 30, .call 0, .call 0, .call 0, .call 0,
    .wait 40, .acquire ⟨2, 2, 2⟩ 30, .extend ⟨1, 1, 1⟩ 30, .call 1, .call 1]

def unlocked : LockRun Unit Unit Unit := start (.new none "mail") 1 0

theorem extendedThenTaken_noTheft :
    (run step unlocked extendedThenTaken).map (fun σ => (σ.holder, σ.calls.map ExtendCall.pc)) =
        some (some ⟨2, 2, 2⟩, [.returned true, .returned false]) ∧
      Guarded step Undisturbed unlocked extendedThenTaken ∧
      Always step NoTheft unlocked extendedThenTaken :=
  ⟨by decide +kernel, by decide +kernel,
    noTheft_of_undisturbed (.new none "mail") 1 0 extendedThenTaken (by decide +kernel)⟩

/-- Worker 1 reads its lock just before it expires; worker 2 takes the job before worker 1
writes. -/
def takenWhileExtending : List LockAction :=
  [.acquire ⟨1, 1, 1⟩ 30, .wait 29, .extend ⟨1, 1, 1⟩ 30, .call 0, .call 0, .wait 1,
    .acquire ⟨2, 2, 2⟩ 30]

/-- The lock of worker 2 is live when the next operation of worker 1 replaces it. -/
theorem takenWhileExtending_theft :
    (run step unlocked takenWhileExtending).map holder = some (some ⟨2, 2, 2⟩) ∧
      ((run step unlocked takenWhileExtending).bind fun σ => σ.step (.call 0)).map holder =
        some (some ⟨1, 1, 1⟩) ∧
      ¬ Always step NoTheft unlocked takenWhileExtending := by
  refine ⟨by decide +kernel, by decide +kernel, ?_⟩
  apply not_always_of_run fun σ : LockRun Unit Unit Unit =>
    decide (σ.calls[0]? = some ⟨⟨1, 1, 1⟩, 30, .extending⟩ ∧ σ.holder = some ⟨2, 2, 2⟩ ∧
      (σ.step (.call 0)).map holder = some (some ⟨1, 1, 1⟩))
  · intro σ hσ h
    obtain ⟨hcall, hheld, hnext⟩ := of_decide_eq_true hσ
    obtain ⟨τ, hτ, hholder⟩ := Option.map_eq_some_iff.mp hnext
    exact h 0 _ τ _ hcall hτ hheld (by decide) hholder
  · decide +kernel

end LockRun

end Kiomq
