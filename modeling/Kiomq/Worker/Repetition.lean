import Kiomq.Foundations.Runs
import Kiomq.Worker.Verdict

/-!
# How often a job is repeated

A repeat policy with a number asks for that many runs after the first one, and one without a
number for a run after every run. The task looks at the policy only while the attempts that
were made are fewer than `opts.attempts`, a limit that is meant for failures. So the job is
repeated as often as its policy says only if it is allowed more attempts than that.
-/

namespace Kiomq

open Foundations InMemoryStore

variable {D R P : Type}

/-- The policies that ask for a number of repetitions, or for repetitions without end. -/
inductive Counted : Repeat → Option ℕ → Prop
  | immediately (n : ℕ) : Counted (.immediately n) (some n)
  | every (delayMs : ℤ) (maxAttempts : Option ℕ) : Counted (.every delayMs maxAttempts) maxAttempts

/-- The time of the next run is in the range of `chrono`. -/
def Repeat.InRange (now : Dt) : Repeat → Prop
  | .every delayMs _ => ∃ next, now.addMillis delayMs = .ok next
  | _ => True

theorem Counted.nextOccurrence {policy : Repeat} {limit : Option ℕ} (h : Counted policy limit)
    {now : Dt} (hrange : policy.InRange now) (backoff : BackOff) (k : ℕ) :
    ∃ found, policy.nextOccurrence backoff k now = .ok found ∧
      (found.isSome = true ↔ ∀ n ∈ limit, k < n) := by
  cases h with
  | immediately n =>
    simp only [Repeat.nextOccurrence, Option.mem_some_iff, forall_eq']
    split_ifs with hn
    · exact ⟨none, rfl, iff_of_false (by simp) (not_lt.mpr hn)⟩
    · exact ⟨some 0, rfl, iff_of_true rfl (not_le.mp hn)⟩
  | every delayMs maxAttempts =>
    obtain ⟨next, hnext⟩ := hrange
    simp only [Repeat.nextOccurrence, hnext, Except.map]
    cases limit with
    | none => exact ⟨_, rfl, iff_of_true rfl (by simp)⟩
    | some n =>
      simp only [Option.any_some, decide_eq_true_eq, Option.mem_some_iff, forall_eq']
      split_ifs with hn
      · exact ⟨none, rfl, iff_of_false (by simp) (not_lt.mpr hn)⟩
      · exact ⟨_, rfl, iff_of_true rfl (not_le.mp hn)⟩

/-- After its run number `k` a job with these attempts and this limit comes again. -/
def Affords (attempts : ℕ) (limit : Option ℕ) (k : ℕ) : Prop := k < attempts ∧ ∀ n ∈ limit, k ≤ n

namespace Queue

theorem verdict_counted (q : Queue D R P) (entry : JobMeta D R P) {after : Job D R P}
    {clock : Clock} {policy : Repeat} {limit : Option ℕ} (hcounted : Counted policy limit)
    (hrange : policy.InRange clock.utc) {k : ℕ} (hmade : after.attemptsMade = k + 1)
    (hpolicy : after.opts.repeat_ = some policy) :
    ∃ v, q.verdict .completed after entry clock = .ok v ∧
      (v.comesAgain = true ↔ Affords entry.job.opts.attempts limit (k + 1)) ∧
      (v.comesAgain = true → ∃ time, v = .repeated time) := by
  simp only [verdict, if_true, hmade]
  by_cases hlt : k + 1 < entry.job.opts.attempts
  · obtain ⟨found, hfound, hsome⟩ := hcounted.nextOccurrence hrange q.backoff k
    simp only [if_pos hlt, nextRepetition, hpolicy, predU64_succ, hfound, Except.map]
    refine ⟨_, rfl, ?_, ?_⟩
    · have haffords : Affords entry.job.opts.attempts limit (k + 1) ↔ found.isSome = true := by
        rw [hsome]
        exact and_iff_right hlt
      rw [haffords]
      cases found <;> simp [Verdict.comesAgain]
    · cases found with
      | none => simp [Verdict.comesAgain]
      | some time => exact fun _ => ⟨time, rfl⟩
  · simp only [if_neg hlt]
    exact ⟨_, rfl, iff_of_false (by simp [Verdict.comesAgain]) fun h => hlt h.1,
      by simp [Verdict.comesAgain]⟩

theorem shelved_perform_repeated (q : Queue D R P) (id : ℕ) (clock : Clock) (time : ℤ) :
    0 < ((Verdict.repeated time).perform q id clock).store.shelved id := by
  simp only [Verdict.perform]
  split_ifs
  · rw [shelved_addItem_wait, if_pos rfl]
    exact Nat.succ_pos _
  · have hmem : id ∈ (q.store.delayed.insert (castUnsigned time) id).values :=
      (OrderedMap.mem_values_insert_iff _ _ _ _).mpr (Or.inl rfl)
    exact Nat.add_pos_right _ (List.count_pos_iff.mpr hmem)

theorem shelved_perform_le (q : Queue D R P) (id : ℕ) (clock : Clock) {v : Verdict}
    (hv : v.comesAgain = false) (j : ℕ) :
    (v.perform q id clock).store.shelved j ≤ q.store.shelved j := by
  cases v with
  | repeated time => cases hv
  | retried time => cases hv
  | cleanUp policy =>
    obtain ⟨t, ht, hpruned⟩ := q.cleanUpJob_spec id policy clock
    rw [Verdict.perform, ht, hpruned.shelved]
  | leave => exact le_rfl

theorem shelved_releaseTask (q : Queue D R P) (handle : Option ℕ) (workerId : Uuid) (id : ℕ)
    (state : JobState) (j : ℕ) :
    (q.releaseTask handle workerId id state).store.shelved j = q.store.shelved j := by
  cases handle <;> rfl

theorem getJob_perform_repeated (q : Queue D R P) (id : ℕ) (clock : Clock) (time : ℤ) (j : ℕ) :
    ((Verdict.repeated time).perform q id clock).store.getJob j = q.store.getJob j := by
  simp only [Verdict.perform]
  split_ifs <;> rfl

theorem getJob_releaseTask (q : Queue D R P) (handle : Option ℕ) (workerId : Uuid) (id : ℕ)
    (state : JobState) (j : ℕ) :
    (q.releaseTask handle workerId id state).store.getJob j = q.store.getJob j := by
  cases handle <;> rfl

end Queue

/-! ### The runs of one job -/

/-- A successful run of the job, or whatever else happens to the queue. -/
inductive RepeatAction (D R P : Type)
  | succeed (job : Job D R P) (token : JobToken) (workerId : Uuid) (value : R) (clock : Clock)
  | elsewhere (q : Queue D R P)

/-- A queue with the number of runs of the job, how often it was put back on a shelf at their
end, and whether it is to run again. -/
structure RepeatRun (D R P : Type) where
  queue : Queue D R P
  runs : ℕ
  repeats : ℕ
  pending : Bool

namespace RepeatRun

def start (q : Queue D R P) : RepeatRun D R P := ⟨q, 0, 0, true⟩

def step (id : ℕ) (w : RepeatRun D R P) : RepeatAction D R P → Option (RepeatRun D R P)
  | .succeed job token workerId value clock =>
    if w.pending then
      let q := (w.queue.processJob job token workerId (.ok value) clock).2
      let again := decide (0 < q.store.shelved id)
      some
        { queue := q
          runs := w.runs + 1
          repeats := if again then w.repeats + 1 else w.repeats
          pending := again }
    else none
  | .elsewhere q => some { w with queue := q }

/-- The record of the job shows `made` attempts, and the options that it was added with. -/
def Shows (q : Queue D R P) (id : ℕ) (policy : Repeat) (attempts made : ℕ) : Prop :=
  ∃ r, q.store.getJob id = some r ∧ r.attemptsMade = made ∧ r.opts.repeat_ = some policy ∧
    r.opts.attempts = attempts

/-- The job runs as `main_loop` starts it: it has an entry and lies on no shelf, and the queue
records its success. As long as it is to run again, its record is changed by its own runs
only. -/
def Regular (id : ℕ) (policy : Repeat) (attempts : ℕ) (w : RepeatRun D R P) :
    RepeatAction D R P → Prop
  | .succeed job _ _ _ clock =>
    job.id = some id ∧ job.getMetrics.isOk = true ∧ w.queue.isPaused = false ∧
      policy.InRange clock.utc ∧ w.queue.store.shelved id = 0 ∧
      ∃ entry, w.queue.jobsInProgress.get? id = some entry ∧ entry.job.opts.attempts = attempts
  | .elsewhere q => w.pending = true → ∀ made, Shows w.queue id policy attempts made →
      Shows q id policy attempts made

/-- The job was put back as often as its policy says: never more than the given number of
times and just as often when it is not to run again, or else after every run. -/
def AsConfigured (limit : Option ℕ) (w : RepeatRun D R P) : Prop :=
  match limit with
  | some n => w.repeats ≤ n ∧ (w.pending = false → w.repeats = n)
  | none => w.repeats = w.runs

/-- The job is allowed more attempts than its policy asks for repetitions. -/
def EnoughAttempts (limit : Option ℕ) (attempts : ℕ) (w : RepeatRun D R P) : Prop :=
  match limit with
  | some n => w.pending = false → n = 0 ∨ n < attempts
  | none => w.runs = 0 ∨ w.runs < attempts

/-- What is known after every step: the job was put back after each run but the last one, and
the last one was the first that does not afford a repetition. -/
structure Inv (id : ℕ) (policy : Repeat) (limit : Option ℕ) (attempts : ℕ)
    (w : RepeatRun D R P) : Prop where
  record : w.pending = true → Shows w.queue id policy attempts w.runs
  granted : w.repeats = 0 ∨ Affords attempts limit w.repeats
  running : w.pending = true → w.repeats = w.runs
  ended : w.pending = false → w.runs = w.repeats + 1 ∧ ¬ Affords attempts limit w.runs

variable {id attempts : ℕ} {policy : Repeat} {limit : Option ℕ} {w t : RepeatRun D R P}

/-- One successful run: whether the job is put back, and its record if it is. -/
theorem succeed_spec (hcounted : Counted policy limit) {q : Queue D R P} {made : ℕ}
    (hrecord : Shows q id policy attempts made) {job : Job D R P} {entry : JobMeta D R P}
    {clock : Clock} (hid : job.id = some id) (hmetrics : job.getMetrics.isOk = true)
    (hpause : q.isPaused = false) (hrange : policy.InRange clock.utc)
    (hnone : q.store.shelved id = 0) (hent : q.jobsInProgress.get? id = some entry)
    (hattempts : entry.job.opts.attempts = attempts) (token : JobToken) (workerId : Uuid)
    (value : R) :
    (0 < (q.processJob job token workerId (.ok value) clock).2.store.shelved id ↔
        Affords attempts limit (made + 1)) ∧
      (Affords attempts limit (made + 1) →
        Shows (q.processJob job token workerId (.ok value) clock).2 id policy attempts
          (made + 1)) := by
  obtain ⟨r, hr, hmade, hpolicy, hlimit⟩ := hrecord
  have hself : job.id.getD 0 = id := by
    rw [hid]
    rfl
  subst hself
  obtain ⟨t, after, hmove, hread⟩ := Queue.moveFinished_readBack hmetrics hr token (.ok value)
    clock
  have hspent : after.attemptsMade = made + 1 := by
    rw [hread.spent, Queue.attemptsAfter, hpause, ← hmade]
    rfl
  have hkept : after.opts.repeat_ = some policy := by
    rw [hread.opts]
    exact hpolicy
  obtain ⟨v, hv, hagain, hrepeated⟩ := q.verdict_counted entry hcounted hrange hspent hkept
  have hresult := Queue.Judges.processJob_eq ⟨hmove, hent⟩ workerId
  simp only [Queue.finishedState, hv] at hresult
  rw [hattempts] at hagain
  rw [hresult]
  constructor
  · rw [Queue.shelved_releaseTask, ← hagain]
    cases hcomes : v.comesAgain with
    | true =>
      obtain ⟨time, rfl⟩ := hrepeated hcomes
      exact iff_of_true (Queue.shelved_perform_repeated _ _ _ time) rfl
    | false =>
      have hle := Queue.shelved_perform_le (q.taken (job.id.getD 0) t) (job.id.getD 0) clock
        hcomes (job.id.getD 0)
      have hmoved := hread.shelved (job.id.getD 0)
      refine iff_of_false (fun hpos => ?_) Bool.false_ne_true
      exact absurd (hpos.trans_le (hle.trans hmoved)) (by omega)
  · intro haffords
    obtain ⟨time, rfl⟩ := hrepeated (hagain.mpr haffords)
    refine ⟨after, ?_, hspent, hkept, ?_⟩
    · rw [Queue.getJob_releaseTask, Queue.getJob_perform_repeated]
      exact hread.found
    · rw [hread.opts]
      exact hlimit

theorem inv_start {q : Queue D R P} (h : Shows q id policy attempts 0) :
    Inv id policy limit attempts (start q) := by
  constructor
  · exact fun _ => h
  · exact Or.inl rfl
  · exact fun _ => rfl
  · intro h
    cases h

theorem inv_step (hcounted : Counted policy limit) {a : RepeatAction D R P}
    (hw : Inv id policy limit attempts w) (hregular : Regular id policy attempts w a)
    (h : w.step id a = some t) : Inv id policy limit attempts t := by
  cases a with
  | elsewhere q =>
    obtain rfl := Option.some.inj h
    constructor
    · exact fun hpending => hregular hpending w.runs (hw.record hpending)
    · exact hw.granted
    · exact hw.running
    · exact hw.ended
  | succeed job token workerId value clock =>
    obtain ⟨hid, hmetrics, hpause, hrange, hnone, entry, hent, hattempts⟩ := hregular
    cases hpending : w.pending with
    | false => simp [step, hpending] at h
    | true =>
      have hcount := hw.running hpending
      obtain ⟨hback, hrecord⟩ := succeed_spec hcounted (hw.record hpending) hid hmetrics hpause
        hrange hnone hent hattempts token workerId value
      simp only [step, hpending, if_true, Option.some.injEq] at h
      by_cases hagain : Affords attempts limit (w.runs + 1)
      · simp only [decide_eq_true (hback.mpr hagain), if_true] at h
        subst h
        constructor
        · exact fun _ => hrecord hagain
        · refine Or.inr ?_
          simp only [hcount]
          exact hagain
        · exact fun _ => congrArg (· + 1) hcount
        · intro hend
          cases hend
      · simp only [decide_eq_false fun hpos => hagain (hback.mp hpos), Bool.false_eq_true,
          if_false] at h
        subst h
        constructor
        · intro hpend
          cases hpend
        · exact hw.granted
        · intro hpend
          cases hpend
        · exact fun _ => ⟨congrArg (· + 1) hcount.symm, hagain⟩

theorem Inv.asConfigured_iff (h : Inv id policy limit attempts w) :
    w.AsConfigured limit ↔ w.EnoughAttempts limit attempts := by
  obtain ⟨-, hgranted, hrunning, hended⟩ := h
  cases limit with
  | some n =>
    simp only [AsConfigured, EnoughAttempts]
    simp only [Affords, Option.mem_some_iff, forall_eq'] at hgranted hended
    have hbound : w.repeats ≤ n := by omega
    rw [and_iff_right hbound]
    apply imp_congr_right
    intro hend
    obtain ⟨hruns, hnot⟩ := hended hend
    constructor
    · intro hrepeats
      omega
    · intro henough
      omega
  | none =>
    simp only [AsConfigured, EnoughAttempts]
    simp only [Affords, Option.not_mem_none, false_implies, implies_true, and_true]
      at hgranted hended
    cases hpending : w.pending with
    | true =>
      have hcount := hrunning hpending
      omega
    | false =>
      obtain ⟨hruns, hnot⟩ := hended hpending
      omega

/-- Along every regular run, a job with a counted policy is repeated as configured just if it
is allowed enough attempts. -/
theorem repeated_asConfigured_iff (hcounted : Counted policy limit) {q : Queue D R P}
    (hstart : Shows q id policy attempts 0) {as : List (RepeatAction D R P)}
    (hregular : Guarded (step id) (Regular id policy attempts) (start q) as)
    (hrun : run (step id) (start q) as = some t) :
    t.AsConfigured limit ↔ t.EnoughAttempts limit attempts := by
  have hinv : Inv id policy limit attempts t :=
    run_invariant (fun w a t hw hreg h => inv_step hcounted hw hreg h) (inv_start hstart)
      hregular hrun
  exact hinv.asConfigured_iff

def onceAgain (attempts : ℕ) : JobOptions := { attempts, repeat_ := some (.immediately 1) }

def fetchedAgain : System Unit Unit Unit :=
  let w := System.oneRunning (onceAgain 2)
  let finished := (w.step (.finish 0 (.ok ()) ⟨5, 0⟩)).getD w
  (finished.poll ⟨0, 0, 1⟩ {} ⟨6, 0⟩).storeHandle 1 10

def bothRuns : List (RepeatAction Unit Unit Unit) :=
  [.succeed ((System.oneRunning (onceAgain 2)).tasks.head (by decide +kernel)).job ⟨0, 0, 0⟩ 0 ()
      ⟨5, 0⟩,
    .elsewhere fetchedAgain.queue,
    .succeed (fetchedAgain.tasks.head (by decide +kernel)).job ⟨0, 0, 1⟩ 0 () ⟨7, 0⟩]

theorem onceAgain_repeated :
    ∃ t, run (step 1) (start (System.oneRunning (onceAgain 2)).queue) bothRuns = some t ∧
      (t.runs, t.repeats, t.pending) = (2, 1, false) ∧ t.AsConfigured (some 1) := by
  have hstart : Shows (System.oneRunning (onceAgain 2)).queue 1 (.immediately 1) 2 0 :=
    ⟨((System.oneRunning (onceAgain 2)).queue.store.getJob 1).get (by decide +kernel),
      (Option.some_get _).symm, by decide +kernel, rfl, by decide +kernel⟩
  have hagain : Shows fetchedAgain.queue 1 (.immediately 1) 2 1 :=
    ⟨(fetchedAgain.queue.store.getJob 1).get (by decide +kernel), (Option.some_get _).symm,
      by decide +kernel, rfl, by decide +kernel⟩
  have hregular : Guarded (step 1) (Regular 1 (.immediately 1) 2)
      (start (System.oneRunning (onceAgain 2)).queue) bothRuns := by
    refine ⟨?_, fun w hw => ⟨?_, fun w' hw' => ⟨?_, fun _ _ => trivial⟩⟩⟩
    · exact ⟨by decide +kernel, by decide +kernel, by decide +kernel, trivial, by decide +kernel,
        ((System.oneRunning (onceAgain 2)).queue.jobsInProgress.get? 1).get (by decide +kernel),
        (Option.some_get _).symm, by decide +kernel⟩
    · rintro - made ⟨r, hr, hmade, -⟩
      obtain rfl := Option.some.inj hw
      have hone : (Option.map Job.attemptsMade (some r)) = some 1 := by
        rw [← hr]
        decide +kernel
      obtain rfl : made = 1 := hmade.symm.trans (Option.some.inj hone)
      exact hagain
    · obtain rfl := Option.some.inj hw'
      have hpause : fetchedAgain.queue.isPaused = false := by decide +kernel
      have hshelf : fetchedAgain.queue.store.shelved 1 = 0 := by decide +kernel
      exact ⟨by decide +kernel, by decide +kernel, hpause, trivial,
        hshelf, (fetchedAgain.queue.jobsInProgress.get? 1).get (by decide +kernel),
        (Option.some_get _).symm, by decide +kernel⟩
  have hrun : run (step 1) (start (System.oneRunning (onceAgain 2)).queue) bothRuns =
      some ((run (step 1) (start (System.oneRunning (onceAgain 2)).queue) bothRuns).get
        (by decide +kernel)) := (Option.some_get _).symm
  have hiff := repeated_asConfigured_iff (.immediately 1) hstart hregular hrun
  exact ⟨_, hrun, by decide +kernel, hiff.mpr fun _ => Or.inr (by decide)⟩

/-- With one attempt, which is enough for a job that succeeds, the job is not repeated. -/
theorem singleAttempt_not_repeated :
    let w := System.oneRunning (onceAgain 1)
    let once : RepeatAction Unit Unit Unit :=
      .succeed (w.tasks.head (by decide +kernel)).job ⟨0, 0, 0⟩ 0 () ⟨5, 0⟩
    ∃ t, Guarded (step 1) (Regular 1 (.immediately 1) 1) (start w.queue) [once] ∧
      run (step 1) (start w.queue) [once] = some t ∧
      (t.runs, t.repeats, t.pending) = (1, 0, false) ∧ ¬ t.AsConfigured (some 1) := by
  intro w once
  refine ⟨(run (step 1) (start w.queue) [once]).get (by decide +kernel), ⟨?_, fun _ _ => trivial⟩,
    (Option.some_get _).symm, by decide +kernel, ?_⟩
  · exact ⟨by decide +kernel, by decide +kernel, by decide +kernel, trivial, by decide +kernel,
      (w.queue.jobsInProgress.get? 1).get (by decide +kernel), (Option.some_get _).symm,
      by decide +kernel⟩
  · intro hconfigured
    exact absurd (hconfigured.2 (by decide +kernel)) (by decide +kernel)

end RepeatRun

end Kiomq
