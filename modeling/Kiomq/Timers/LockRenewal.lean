import Kiomq.Foundations.Ticks
import Kiomq.Queue.LockOwnership

/-!
# Renewal of locks by the timer

The timer that extends the locks fires every `lock_duration` milliseconds, which is how
long a lock lasts. A lock taken between two firings is renewed by the next firing, but it
expires at the very instant of the one after it, where the renewal comes too late: an
expired lock is not extended. So a lock ends at the second firing after it was taken, or
at the first one if it was taken at a firing.
-/

namespace Kiomq

open Foundations InMemoryStore

variable {D R P : Type}

namespace Queue

/-- The workers whose lock duration is that of the timer. -/
def lockHolders (workers : OrderedMap Uuid WorkerOpts) (duration : ℕ) : List Uuid :=
  (workers.filter fun e => e.2.lockDuration = duration).keys

def extendEach (q : Queue D R P) (pairs : List (ℕ × JobMeta D R P)) (clock : Clock) :
    Queue D R P :=
  pairs.foldl (fun q e => e.2.job.id.elim q fun id =>
    (q.extendLock id e.2.opts.lockDuration e.2.token clock).2) q

/-- `process_timer` on the timer that extends locks: the lock of every job in progress of
these workers is extended by the duration of its own worker. -/
def processExtendLock (q : Queue D R P) (workers : OrderedMap Uuid WorkerOpts) (duration : ℕ)
    (clock : Clock) : Queue D R P :=
  let holders := lockHolders workers duration
  q.extendEach (q.jobsInProgress.entries.filter fun e => holders.contains e.2.token.worker) clock

def fireExtendLock (q : Queue D R P) (workers : OrderedMap Uuid WorkerOpts) (duration : ℕ)
    (instants : List ℕ) : Queue D R P :=
  instants.foldl (fun q instant => q.processExtendLock workers duration ⟨0, instant⟩) q

def renewLock (q : Queue D R P) (id lockDuration : ℕ) (token : JobToken) (instants : List ℕ) :
    Queue D R P :=
  instants.foldl (fun q instant => (q.extendLock id lockDuration token ⟨0, instant⟩).2) q

/-- The queue at an instant: a job was locked at `start`, and the timer, which has fired at
`origin`, has extended its lock at every firing since. -/
def lockedAt (q : Queue D R P) (token : JobToken) (id ts : ℕ) (opts : WorkerOpts)
    (prev : JobState) (start : Clock) (origin instant : ℕ) : Queue D R P :=
  renewLock (q.prepareJobForProcessing token id ts opts prev start).2 id opts.lockDuration token
    (ticks origin opts.lockDuration start.instant instant)

def expectedLock (token : JobToken) (duration start origin instant : ℕ) :
    Option (ExpiryValue Lock) :=
  let next := nextTick origin duration start
  if instant < next then some (.expirable (.token token) (start + duration))
  else if (start - origin) % duration ≠ 0 ∧ instant < next + duration then
    some (.expirable (.token token) (next + duration))
  else none

theorem expectedLock_step (token : JobToken) {duration start origin instant : ℕ}
    (hduration : 1 ≤ duration) (horigin : origin ≤ start) (hinstant : start ≤ instant) :
    expectedLock token duration start origin (instant + 1) =
      if (instant + 1 - origin) % duration = 0 then
        (expectedLock token duration start origin instant).bind fun found =>
          if found.isExpired (instant + 1) then none
          else some (.expirable (.token token) (instant + 1 + duration))
      else expectedLock token duration start origin instant := by
  have hmod := Nat.mod_lt (start - origin) hduration
  have hnext : nextTick origin duration start =
    start + (duration - (start - origin) % duration) := rfl
  split_ifs with htick
  · -- at a tick, the lock is the one of the instant before, renewed or gone
    rcases tick_cases horigin hduration (Nat.lt_succ_of_le hinstant) htick with heq | hlater
    · have hbefore : instant < nextTick origin duration start := by omega
      have hnot : ¬ instant + 1 < nextTick origin duration start := by omega
      by_cases hphase : (start - origin) % duration = 0
      · have hexp : start + duration ≤ instant + 1 := by omega
        simp [expectedLock, hbefore, hnot, hphase, ExpiryValue.isExpired, hexp]
      · have hexp : ¬ start + duration ≤ instant + 1 := by omega
        have hlt : instant + 1 < nextTick origin duration start + duration := by omega
        simp only [expectedLock, if_pos hbefore, if_neg hnot, Option.bind_some,
          ExpiryValue.isExpired, hexp, decide_false, Bool.false_eq_true, if_false]
        rw [if_pos ⟨hphase, hlt⟩, ← heq]
    · have hnot : ¬ instant < nextTick origin duration start := by omega
      have hnot' : ¬ instant + 1 < nextTick origin duration start := by omega
      have hdone : ¬ instant + 1 < nextTick origin duration start + duration := by omega
      simp only [expectedLock, if_neg hnot, if_neg hnot', hdone, and_false, if_false]
      split_ifs
      · simp [ExpiryValue.isExpired, hlater]
      · rfl
  · have hne : instant + 1 ≠ nextTick origin duration start := by
      intro heq
      exact htick (heq ▸ mod_nextTick horigin hduration)
    have hne' : instant + 1 ≠ nextTick origin duration start + duration := by
      intro heq
      exact htick (heq ▸ mod_nextTick_add horigin hduration)
    have hfirst : instant + 1 < nextTick origin duration start ↔
        instant < nextTick origin duration start := by omega
    have hsecond : instant + 1 < nextTick origin duration start + duration ↔
        instant < nextTick origin duration start + duration := by omega
    simp only [expectedLock, hfirst, hsecond]

theorem get_of_mem_expectedLock {token : JobToken} {duration start origin instant : ℕ}
    {found : ExpiryValue Lock}
    (h : found ∈ expectedLock token duration start origin instant) :
    found.get = .token token := by
  simp only [expectedLock] at h
  split_ifs at h
  · cases h
    rfl
  · cases h
    rfl
  · cases h

/-- The lock has not expired up to the first firing, and up to the second one if it was
taken between two firings. -/
theorem expectedLock_live (token : JobToken) {duration : ℕ} (start origin instant : ℕ)
    (hduration : 1 ≤ duration) :
    (∃ found ∈ expectedLock token duration start origin instant,
        found.isExpired instant = false) ↔
      instant < nextTick origin duration start ∨
        (start - origin) % duration ≠ 0 ∧ instant < nextTick origin duration start + duration := by
  have hle : nextTick origin duration start ≤ start + duration := by
    unfold nextTick
    omega
  simp only [expectedLock]
  split_ifs with hfirst hsecond
  · have hlive : ¬ start + duration ≤ instant := by omega
    simp [hfirst, ExpiryValue.isExpired, hlive]
  · have hlive : ¬ nextTick origin duration start + duration ≤ instant := by omega
    simp [hsecond, ExpiryValue.isExpired, hlive]
  · simp [hfirst, hsecond]

/-! ### The lock of a fetched job -/

theorem locks_removeItem_ofJobState (s : InMemoryStore D R P) (state : JobState) (id : ℕ) :
    (s.removeItem (.ofJobState state) id).locks = s.locks := by
  cases state <;> rfl

theorem locks_addItem (s : InMemoryStore D R P) (col : CollectionSuffix) (id : ℕ)
    (score : Option ℤ) (append : Bool) : (s.addItem col id score append).locks = s.locks := by
  cases col <;> rfl

theorem locks_moveJobToState_active (q : Queue D R P) (id : ℕ) (prev : JobState) (clock : Clock) :
    (q.moveJobToState id prev .active none none none clock).2.store.locks = q.store.locks := by
  have hrelocate : (relocate q.store id prev .active none clock).locks = q.store.locks := by
    simp only [relocate]
    rw [if_neg (by decide)]
    split_ifs
    · rfl
    · rw [locks_addItem, locks_removeItem_ofJobState]
      rfl
  unfold moveJobToState
  split_ifs
  · rfl
  · rfl
  · exact hrelocate

theorem locks_prepareJobForProcessing (q : Queue D R P) (token : JobToken) (id ts : ℕ)
    (opts : WorkerOpts) (prev : JobState) (clock : Clock) :
    (q.prepareJobForProcessing token id ts opts prev clock).2.store.locks =
      q.store.locks.insertExpirable (.lock id) (.token token) opts.lockDuration clock.instant := by
  have hmove := locks_moveJobToState_active
    { q with store := q.store.setLock (.lock id) (some token) opts.lockDuration clock.instant }
    id prev clock
  unfold prepareJobForProcessing
  dsimp only
  generalize moveJobToState
    { q with store := q.store.setLock (.lock id) (some token) opts.lockDuration clock.instant }
    id prev .active none none none clock = out at hmove
  obtain ⟨answer, t⟩ := out
  cases answer with
  | error e => exact hmove
  | ok value =>
    dsimp only
    split <;> exact hmove

theorem disableExpiration_extendLock (q : Queue D R P) (id lockDuration : ℕ) (token : JobToken)
    (clock : Clock) :
    (q.extendLock id lockDuration token clock).2.store.locks.disableExpiration =
      q.store.locks.disableExpiration := by
  have hget : (q.store.getToken id clock.instant).2.locks.disableExpiration =
      q.store.locks.disableExpiration := by
    simp only [getToken, TimedMap.get]
    split
    · rfl
    · split_ifs <;> rfl
  rw [← hget]
  unfold extendLock
  dsimp only
  split_ifs
  · simp only [removeItem, setLock, TimedMap.insertExpirable]
    split_ifs <;> rfl
  · rfl

theorem renewLock_append (q : Queue D R P) (id lockDuration : ℕ) (token : JobToken)
    (xs ys : List ℕ) :
    q.renewLock id lockDuration token (xs ++ ys) =
      (q.renewLock id lockDuration token xs).renewLock id lockDuration token ys :=
  List.foldl_append

theorem disableExpiration_renewLock (q : Queue D R P) (id lockDuration : ℕ) (token : JobToken)
    (instants : List ℕ) :
    (q.renewLock id lockDuration token instants).store.locks.disableExpiration =
      q.store.locks.disableExpiration := by
  induction instants generalizing q with
  | nil => rfl
  | cons instant instants ih => exact (ih _).trans (disableExpiration_extendLock q _ _ _ _)

theorem get?_renewLock_constant (q : Queue D R P) (id lockDuration : ℕ) (token : JobToken)
    (hconst : q.store.locks.disableExpiration = true)
    (hlock : q.store.locks.inner.get? (.lock id) = some (.constant (.token token)))
    (instants : List ℕ) :
    (q.renewLock id lockDuration token instants).store.locks.inner.get? (.lock id) =
      some (.constant (.token token)) := by
  induction instants generalizing q with
  | nil => exact hlock
  | cons instant instants ih =>
    apply ih
    · rw [disableExpiration_extendLock, hconst]
    · rw [get?_extendLock, hlock, hconst]
      simp [ExpiryValue.isExpired, ExpiryValue.get]

/-- The lock at every instant, by induction on the time that has passed. -/
theorem get?_renewLock_ticks (q : Queue D R P) (id duration : ℕ) (token : JobToken)
    (hexpire : q.store.locks.disableExpiration = false) {start origin instant : ℕ}
    (hlock : q.store.locks.inner.get? (.lock id) =
      some (.expirable (.token token) (start + duration)))
    (hduration : 1 ≤ duration) (horigin : origin ≤ start) (hinstant : start ≤ instant) :
    (q.renewLock id duration token (ticks origin duration start instant)).store.locks.inner.get?
      (.lock id) = expectedLock token duration start origin instant := by
  induction instant, hinstant using Nat.le_induction with
  | base =>
    rw [ticks_self]
    refine hlock.trans ?_
    simp only [expectedLock, if_pos (start_lt_nextTick hduration)]
  | succ instant hle ih =>
    rw [ticks_succ hle, renewLock_append, expectedLock_step token hduration horigin hle]
    split_ifs with htick
    · have hflag := q.disableExpiration_renewLock id duration token
        (ticks origin duration start instant)
      generalize q.renewLock id duration token (ticks origin duration start instant) = r at ih hflag
      refine (r.get?_extendLock id duration token ⟨0, instant + 1⟩).trans ?_
      rw [ih, hflag, hexpire]
      apply Option.bind_congr
      intro found hfound
      simp [get_of_mem_expectedLock hfound]
    · exact ih

/-! ### One firing of the timer -/

theorem extendEach_cons (q : Queue D R P) (e : ℕ × JobMeta D R P)
    (pairs : List (ℕ × JobMeta D R P)) (clock : Clock) :
    q.extendEach (e :: pairs) clock =
      (e.2.job.id.elim q fun id =>
        (q.extendLock id e.2.opts.lockDuration e.2.token clock).2).extendEach pairs clock :=
  rfl

theorem extendEach_append (q : Queue D R P) (xs ys : List (ℕ × JobMeta D R P)) (clock : Clock) :
    q.extendEach (xs ++ ys) clock = (q.extendEach xs clock).extendEach ys clock :=
  List.foldl_append

theorem get?_extendEach_of_ne (q : Queue D R P) (pairs : List (ℕ × JobMeta D R P))
    (clock : Clock) {id : ℕ} (h : ∀ e ∈ pairs, e.2.job.id ≠ some id) :
    (q.extendEach pairs clock).store.locks.inner.get? (.lock id) =
      q.store.locks.inner.get? (.lock id) := by
  induction pairs generalizing q with
  | nil => rfl
  | cons e pairs ih =>
    have hhead := h e List.mem_cons_self
    have htail := fun e' he' => h e' (List.mem_cons_of_mem e he')
    rw [extendEach_cons, ih _ htail]
    cases hid : e.2.job.id with
    | none => rfl
    | some other =>
      have hne : id ≠ other := by
        rintro rfl
        exact hhead hid
      exact q.get?_extendLock_of_ne _ _ clock hne

theorem disableExpiration_extendEach (q : Queue D R P) (pairs : List (ℕ × JobMeta D R P))
    (clock : Clock) :
    (q.extendEach pairs clock).store.locks.disableExpiration =
      q.store.locks.disableExpiration := by
  induction pairs generalizing q with
  | nil => rfl
  | cons e pairs ih =>
    rw [extendEach_cons, ih]
    cases e.2.job.id with
    | none => rfl
    | some other => exact disableExpiration_extendLock q other _ _ clock

/-- A firing does to the lock of a job in progress just what `extend_lock` does to it, if the
worker of the job has the lock duration of the timer. -/
theorem get?_processExtendLock (q : Queue D R P) (workers : OrderedMap Uuid WorkerOpts)
    (duration : ℕ) (clock : Clock) {id : ℕ} {entry : JobMeta D R P}
    (hids : ∀ e ∈ q.jobsInProgress.entries, e.2.job.id = some e.1)
    (hentry : (id, entry) ∈ q.jobsInProgress.entries)
    (hworker : (lockHolders workers duration).contains entry.token.worker = true) :
    (q.processExtendLock workers duration clock).store.locks.inner.get? (.lock id) =
      (q.extendLock id entry.opts.lockDuration entry.token clock).2.store.locks.inner.get?
        (.lock id) := by
  let chosen := fun e : ℕ × JobMeta D R P =>
    (lockHolders workers duration).contains e.2.token.worker
  have hsorted := (q.jobsInProgress.filter chosen).sorted
  have hmem : (id, entry) ∈ q.jobsInProgress.entries.filter chosen :=
    List.mem_filter.mpr ⟨hentry, hworker⟩
  obtain ⟨before, after, hsplit⟩ := List.append_of_mem hmem
  have hid : ∀ e ∈ before ++ (id, entry) :: after, e.2.job.id = some e.1 := by
    intro e he
    exact hids e (List.mem_of_mem_filter (hsplit ▸ he))
  simp only [OrderedMap.filter, hsplit] at hsorted
  obtain ⟨-, hafter, hbefore⟩ := List.pairwise_append.mp hsorted
  -- the jobs before and after this one have other ids
  have hne : ∀ e ∈ before, e.2.job.id ≠ some id := by
    intro e he
    rw [hid e (List.mem_append_left _ he)]
    simpa using (hbefore e he _ List.mem_cons_self).ne
  have hne' : ∀ e ∈ after, e.2.job.id ≠ some id := by
    intro e he
    rw [hid e (List.mem_append_right _ (List.mem_cons_of_mem _ he))]
    simpa using ((List.pairwise_cons.mp hafter).1 e he).ne'
  have hself : entry.job.id = some id := hid (id, entry) (by simp)
  have hlock := q.get?_extendEach_of_ne before clock hne
  have hflag := q.disableExpiration_extendEach before clock
  change (q.extendEach (q.jobsInProgress.entries.filter chosen) clock).store.locks.inner.get? _ = _
  rw [hsplit, extendEach_append, extendEach_cons, hself, Option.elim_some,
    get?_extendEach_of_ne _ after clock hne', get?_extendLock, get?_extendLock, hlock, hflag]

theorem jobsInProgress_extendEach (q : Queue D R P) (pairs : List (ℕ × JobMeta D R P))
    (clock : Clock) : (q.extendEach pairs clock).jobsInProgress = q.jobsInProgress := by
  induction pairs generalizing q with
  | nil => rfl
  | cons e pairs ih =>
    rw [extendEach_cons, ih]
    cases e.2.job.id with
    | none => rfl
    | some other =>
      simp only [Option.elim_some, extendLock]
      split_ifs <;> rfl

/-- As far as one lock is concerned, the firings are its renewals. -/
theorem get?_fireExtendLock {workers : OrderedMap Uuid WorkerOpts} {duration id : ℕ}
    {entry : JobMeta D R P}
    (hworker : (lockHolders workers duration).contains entry.token.worker = true)
    (instants : List ℕ) {q r : Queue D R P}
    (hids : ∀ e ∈ q.jobsInProgress.entries, e.2.job.id = some e.1)
    (hentry : (id, entry) ∈ q.jobsInProgress.entries)
    (hlock : q.store.locks.inner.get? (.lock id) = r.store.locks.inner.get? (.lock id))
    (hflag : q.store.locks.disableExpiration = r.store.locks.disableExpiration) :
    (q.fireExtendLock workers duration instants).store.locks.inner.get? (.lock id) =
      (r.renewLock id entry.opts.lockDuration entry.token instants).store.locks.inner.get?
        (.lock id) := by
  induction instants generalizing q r with
  | nil => exact hlock
  | cons instant instants ih =>
    have hjobs : (q.processExtendLock workers duration ⟨0, instant⟩).jobsInProgress =
        q.jobsInProgress := jobsInProgress_extendEach q _ _
    apply ih
    · rwa [hjobs]
    · rwa [hjobs]
    · rw [get?_processExtendLock q workers duration ⟨0, instant⟩ hids hentry hworker,
        get?_extendLock, get?_extendLock, hlock, hflag]
    · exact (disableExpiration_extendEach q _ _).trans
        (hflag.trans (disableExpiration_extendLock r _ _ _ _).symm)

/-! ### How long a lock is held -/

def LockTaken (q : Queue D R P) (id : ℕ) (token : JobToken) (duration start : ℕ) : Prop :=
  q.store.locks.inner.get? (.lock id) =
    some (if q.store.locks.disableExpiration then .constant (.token token)
      else .expirable (.token token) (start + duration))

/-- The renewals keep a lock up to the first firing, and up to the second one if it was taken
between two firings. -/
theorem renewLock_held_iff {q : Queue D R P} {id : ℕ} {token : JobToken}
    {duration start origin instant : ℕ} (h : q.LockTaken id token duration start)
    (hduration : 1 ≤ duration) (horigin : origin ≤ start) (hinstant : start ≤ instant) :
    ((q.renewLock id duration token (ticks origin duration start instant)).store.getToken id
        instant).1 = some token ↔
      q.store.locks.disableExpiration = true ∨ instant < nextTick origin duration start ∨
        (start - origin) % duration ≠ 0 ∧ instant < nextTick origin duration start + duration := by
  rw [getToken_fst_iff]
  unfold LockTaken at h
  cases hexpire : q.store.locks.disableExpiration with
  | true =>
    rw [hexpire, if_pos rfl] at h
    have hlock := get?_renewLock_constant q id duration token hexpire h
      (ticks origin duration start instant)
    simp [hlock, ExpiryValue.isExpired, ExpiryValue.get]
  | false =>
    rw [hexpire] at h
    have hlock := get?_renewLock_ticks q id duration token hexpire h hduration horigin hinstant
    have hlive := expectedLock_live token start origin instant hduration
    rw [hlock, ← hlive]
    simp only [Bool.false_eq_true, false_or]
    constructor
    · rintro ⟨found, hmem, hexp, -⟩
      exact ⟨found, hmem, hexp⟩
    · rintro ⟨found, hmem, hexp⟩
      exact ⟨found, hmem, hexp, get_of_mem_expectedLock hmem⟩

theorem lockTaken_prepareJobForProcessing (q : Queue D R P) (token : JobToken) (id ts : ℕ)
    (opts : WorkerOpts) (prev : JobState) (clock : Clock) :
    (q.prepareJobForProcessing token id ts opts prev clock).2.LockTaken id token
      opts.lockDuration clock.instant := by
  unfold LockTaken
  rw [locks_prepareJobForProcessing, TimedMap.get?_inner_insertExpirable, if_pos rfl,
    TimedMap.disableExpiration_insertExpirable]

/-- At an instant after it was taken the lock is still held by its worker just if locks do
not expire, the timer has not fired yet, or the lock was taken between two firings and the
timer has fired only once. -/
theorem lock_held_iff (q : Queue D R P) (token : JobToken) (id ts : ℕ) (opts : WorkerOpts)
    (prev : JobState) (start : Clock) (origin instant : ℕ) (hduration : 1 ≤ opts.lockDuration)
    (horigin : origin ≤ start.instant) (hinstant : start.instant ≤ instant) :
    ((q.lockedAt token id ts opts prev start origin instant).store.getToken id instant).1 =
        some token ↔
      q.store.locks.disableExpiration = true ∨
        instant < nextTick origin opts.lockDuration start.instant ∨
        (start.instant - origin) % opts.lockDuration ≠ 0 ∧
          instant < nextTick origin opts.lockDuration start.instant + opts.lockDuration := by
  have hheld := renewLock_held_iff
    (q.lockTaken_prepareJobForProcessing token id ts opts prev start) hduration horigin hinstant
  rwa [locks_prepareJobForProcessing, TimedMap.disableExpiration_insertExpirable] at hheld

/-- Locked for 30 milliseconds at time 10, between the firings at 0 and 30, the lock is held
after the second of these. -/
theorem lock_held_after_firing :
    ((waitingJob.lockedAt ⟨1, 1, 1⟩ 1 0 { lockDuration := 30 } .wait ⟨0, 10⟩ 0 35).store.getToken 1
      35).1 = some ⟨1, 1, 1⟩ := by
  apply (lock_held_iff waitingJob ⟨1, 1, 1⟩ 1 0 { lockDuration := 30 } .wait ⟨0, 10⟩ 0 35
    (by decide) (by decide) (by decide)).mpr
  decide +kernel

/-- The same lock is lost at the firing at time 60, while the job is in progress. -/
theorem lock_lost_at_second_firing :
    ((waitingJob.lockedAt ⟨1, 1, 1⟩ 1 0 { lockDuration := 30 } .wait ⟨0, 10⟩ 0 60).store.getToken 1
      60).1 = none := by
  decide +kernel

/-- The same for the timer of the queue, which extends the locks of all jobs in progress at every
firing: what the others do at the firings does not matter. -/
theorem firings_hold_lock_iff {q : Queue D R P} {workers : OrderedMap Uuid WorkerOpts}
    {id duration start origin instant : ℕ} {entry : JobMeta D R P}
    (hids : ∀ e ∈ q.jobsInProgress.entries, e.2.job.id = some e.1)
    (hentry : (id, entry) ∈ q.jobsInProgress.entries)
    (hworker : (lockHolders workers duration).contains entry.token.worker = true)
    (hopts : entry.opts.lockDuration = duration)
    (htaken : q.LockTaken id entry.token duration start) (hduration : 1 ≤ duration)
    (horigin : origin ≤ start) (hinstant : start ≤ instant) :
    ((q.fireExtendLock workers duration (ticks origin duration start instant)).store.getToken id
        instant).1 = some entry.token ↔
      q.store.locks.disableExpiration = true ∨ instant < nextTick origin duration start ∨
        (start - origin) % duration ≠ 0 ∧ instant < nextTick origin duration start + duration := by
  have hsame := get?_fireExtendLock hworker (ticks origin duration start instant) hids hentry
    (r := q) rfl rfl
  rw [hopts] at hsame
  rw [← renewLock_held_iff htaken hduration horigin hinstant, getToken_fst_iff, getToken_fst_iff,
    hsame]

def heldEntry (id : ℕ) : JobMeta ℕ Unit Unit :=
  ⟨Job.new "a" (some 7) (some id) none 0, ⟨1, 1, id⟩, none, { lockDuration := 30 }⟩

def twoInProgress : Queue ℕ Unit Unit :=
  { (waitingJob.prepareJobForProcessing ⟨1, 1, 1⟩ 1 0 { lockDuration := 30 } .wait ⟨0, 10⟩).2 with
    jobsInProgress := (OrderedMap.empty.insert 1 (heldEntry 1)).insert 2 (heldEntry 2) }

theorem twoInProgress_held :
    ((twoInProgress.fireExtendLock (OrderedMap.empty.insert 1 { lockDuration := 30 }) 30
      (ticks 0 30 10 35)).store.getToken 1 35).1 = some ⟨1, 1, 1⟩ := by
  have htaken : twoInProgress.LockTaken 1 ⟨1, 1, 1⟩ 30 10 :=
    waitingJob.lockTaken_prepareJobForProcessing ⟨1, 1, 1⟩ 1 0 { lockDuration := 30 } .wait ⟨0, 10⟩
  have hentries : twoInProgress.jobsInProgress.entries = [(1, heldEntry 1), (2, heldEntry 2)] := rfl
  have hids : ∀ e ∈ twoInProgress.jobsInProgress.entries, e.2.job.id = some e.1 := by
    rw [hentries]
    decide
  have hentry : (1, heldEntry 1) ∈ twoInProgress.jobsInProgress.entries := by
    rw [hentries]
    exact List.mem_cons_self
  exact (firings_hold_lock_iff hids hentry (by decide) rfl htaken (by decide) (by decide)
    (by decide)).mpr (by decide +kernel)

end Queue

end Kiomq
