import Kiomq.Queue.Queue

/-!
# What the operations on a job leave alone

Fetching, finishing and retrying a job touch neither the pause flag of the store nor its
counter of jobs in processing, which is raised and lowered by one operation only.
-/

namespace Kiomq

open InMemoryStore

variable {D R P : Type}

namespace InMemoryStore

structure SameFlags (s t : InMemoryStore D R P) : Prop where
  isPaused : t.isPaused = s.isPaused
  processing : t.processing = s.processing

theorem SameFlags.refl (s : InMemoryStore D R P) : SameFlags s s := ⟨rfl, rfl⟩

theorem SameFlags.trans {s t u : InMemoryStore D R P} (h : SameFlags s t) (h' : SameFlags t u) :
    SameFlags s u :=
  ⟨h'.isPaused.trans h.isPaused, h'.processing.trans h.processing⟩

theorem sameFlags_addItem (s : InMemoryStore D R P) (col : CollectionSuffix) (i : ℕ)
    (score : Option ℤ) (append : Bool) : SameFlags s (s.addItem col i score append) := by
  cases col <;> exact ⟨rfl, rfl⟩

theorem sameFlags_removeItem (s : InMemoryStore D R P) (col : CollectionSuffix) (i : ℕ) :
    SameFlags s (s.removeItem col i) := by
  cases col <;> exact ⟨rfl, rfl⟩

theorem sameFlags_existsIn (s : InMemoryStore D R P) (col : CollectionSuffix) (i now : ℕ) :
    SameFlags s (s.existsIn col i now).2 := by
  cases col <;> exact ⟨rfl, rfl⟩

theorem sameFlags_popBackPushFront (s : InMemoryStore D R P) :
    SameFlags s (s.popBackPushFront .wait .active).2 := by
  unfold popBackPushFront
  simp only
  split <;> exact ⟨rfl, rfl⟩

end InMemoryStore

namespace Queue

theorem sameFlags_relocate (s : InMemoryStore D R P) (id : ℕ) (prev next : JobState)
    (ts : Option ℤ) (clock : Clock) : SameFlags s (relocate s id prev next ts clock) := by
  unfold relocate
  simp only
  split_ifs
  · have hincr : SameFlags s (s.incr (.job id) 1 (some .attemptsMade)).2 := ⟨rfl, rfl⟩
    exact (hincr.trans (sameFlags_removeItem _ _ _)).trans (sameFlags_addItem _ _ _ _ _)
  · exact sameFlags_existsIn _ _ _ _
  · exact ((sameFlags_existsIn _ _ _ _).trans (sameFlags_removeItem _ _ _)).trans
      (sameFlags_addItem _ _ _ _ _)

theorem sameFlags_moveJobToState (q : Queue D R P) (id : ℕ) (prev next : JobState)
    (value : Option (ProcessedResult R)) (ts : Option ℤ) (backtrace : Option Trace)
    (clock : Clock) :
    SameFlags q.store (q.moveJobToState id prev next value ts backtrace clock).2.store := by
  unfold moveJobToState
  split_ifs
  · exact .refl _
  · exact .refl _
  · obtain ⟨hpaused, hproc⟩ := sameFlags_relocate q.store id prev next ts clock
    exact ⟨hpaused, hproc⟩

theorem sameFlags_moveJobToFinishedOrFailed (q : Queue D R P) (id : ℕ) (ts : ℤ) (token : JobToken)
    (next : JobState) (processed : ProcessedResult R) (backtrace : Option Trace) (clock : Clock) :
    SameFlags q.store
      (q.moveJobToFinishedOrFailed id ts token next processed backtrace clock).2.store := by
  rw [moveJobToFinishedOrFailed_snd]
  exact q.sameFlags_moveJobToState id _ next (some processed) (some ts) backtrace clock

theorem sameFlags_prepareJob (q : Queue D R P) (token : JobToken) (opts : WorkerOpts) (id : ℕ)
    (clock : Clock) : SameFlags q.store (q.prepareJob token opts id clock).2.store := by
  have hmove := sameFlags_moveJobToState
    { q with store := q.store.setLock (.lock id) (some token) opts.lockDuration clock.instant }
    id ((q.store.getState id).getD default) .active none none none clock
  unfold prepareJob prepareJobForProcessing
  simp only
  split
  · next heq =>
    rw [heq] at hmove
    exact ⟨hmove.isPaused, hmove.processing⟩
  · next heq =>
    rw [heq] at hmove
    split <;> exact ⟨hmove.isPaused, hmove.processing⟩

theorem sameFlags_moveJobFromPriortyToActive (q : Queue D R P) :
    SameFlags q.store q.moveJobFromPriortyToActive.2.store := by
  unfold moveJobFromPriortyToActive popSet
  simp only
  split
  · next h =>
    rw [← (Prod.mk.inj h).2]
    exact ⟨rfl, rfl⟩
  · next h =>
    rw [← (Prod.mk.inj h).2]
    exact ⟨rfl, rfl⟩

theorem sameFlags_moveToActive (q : Queue D R P) (token : JobToken) (opts : WorkerOpts)
    (clock : Clock) : SameFlags q.store (q.moveToActive token opts clock).2.store := by
  have hpop := q.store.sameFlags_popBackPushFront
  unfold moveToActive
  split
  · next id s heq =>
    rw [heq] at hpop
    exact hpop.trans (sameFlags_prepareJob { q with store := s } token opts id clock)
  · next s heq =>
    rw [heq] at hpop
    have hset := sameFlags_moveJobFromPriortyToActive { q with store := s }
    split
    · next id q' hmove =>
      rw [hmove] at hset
      exact (hpop.trans hset).trans (sameFlags_prepareJob q' token opts id clock)
    · next q' hmove =>
      rw [hmove] at hset
      exact hpop.trans hset

theorem sameFlags_retryJob (q : Queue D R P) (id : ℕ) (opts : RetryOptions) (attempts : ℕ)
    (clock : Clock) : SameFlags q.store (q.retryJob id opts attempts clock).2.store := by
  cases opts with
  | failed backoffJobOpts =>
    simp only [retryJob, retryFailed]
    split
    · exact .refl _
    · split <;> exact ⟨rfl, rfl⟩
  | withRepeat r =>
    simp only [retryJob]
    split
    · exact .refl _
    · exact .refl _
    · split_ifs <;> exact ⟨rfl, rfl⟩

/-! ### The counter of jobs in processing -/

theorem processing_raise (q : Queue D R P) (worker : Uuid) (id : ℕ) (state : JobState) :
    (q.updateProcessingCount true worker id state).2.store.processing = q.store.processing + 1 :=
  rfl

theorem processing_lower {q : Queue D R P} {n : ℕ} (h : q.store.processing = n + 1) (worker : Uuid)
    (id : ℕ) (state : JobState) :
    (q.updateProcessingCount false worker id state).2.store.processing = n := by
  change handleCounter q.store.processing (-1) = n
  simp [handleCounter, h]

end Queue

end Kiomq
