import Kiomq.Queue.Placement

/-!
# What a failed dispatch leaves behind

`move_to_active` moves an id to the active list and locks it before it looks for the record
of the job, and it takes nothing back. It fails just if the id that is next has no record,
whether or not the queue is paused; then the id has left its collection and stays active.
-/

namespace Kiomq

open Foundations InMemoryStore

variable {D R P : Type}

namespace InMemoryStore

/-- The id that the next fetch takes: the last one of the wait list, or else the one with
the least score. -/
def nextToFetch (s : InMemoryStore D R P) : Option ℕ :=
  s.waiting.values.getLast?.or (s.prioritized.front?.map Prod.snd)

/-- The two collections that jobs are fetched from, the active list, the locks and the
records are the same. -/
structure Untouched (s t : InMemoryStore D R P) : Prop where
  waiting : t.waiting.values = s.waiting.values
  prioritized : t.prioritized = s.prioritized
  active : t.active.values = s.active.values
  locks : t.locks = s.locks
  jobs : t.jobs = s.jobs

theorem popBackPushFront_spec (s : InMemoryStore D R P) :
    (s.popBackPushFront .wait .active).1 = s.waiting.values.getLast? ∧
      (s.popBackPushFront .wait .active).2.waiting.values = s.waiting.values.dropLast ∧
      (s.popBackPushFront .wait .active).2.jobs = s.jobs := by
  have hlast := s.waiting.popBack_fst
  have hrest := s.waiting.values_popBack
  unfold popBackPushFront
  cases hw : s.waiting.popBack with
  | mk found waiting =>
    rw [hw] at hlast hrest
    cases found with
    | none => exact ⟨hlast, hrest, rfl⟩
    | some id => exact ⟨hlast, hrest, rfl⟩

end InMemoryStore

namespace Queue

theorem moveJobFromPriortyToActive_front {q : Queue D R P} {e : ℕ × ℕ}
    (h : q.store.prioritized.front? = some e) :
    q.moveJobFromPriortyToActive =
      (some e.2, { q with
        store := { q.store with
          prioritized := q.store.prioritized.remove e.1
          active := q.store.active.pushFront e.2 } }) := by
  simp only [moveJobFromPriortyToActive, popSet, popScored, if_true, h]
  rfl

theorem moveJobFromPriortyToActive_empty {q : Queue D R P}
    (h : q.store.prioritized.front? = none) : q.moveJobFromPriortyToActive = (none, q) := by
  simp only [moveJobFromPriortyToActive, popSet, popScored, if_true, h]
  rfl

theorem getJob_relocate_active (s : InMemoryStore D R P) (id : ℕ) (prev : JobState)
    (ts : Option ℤ) (clock : Clock) : (relocate s id prev .active ts clock).getJob = s.getJob := by
  have hfound : s.existsIn (.ofJobState .active) id clock.instant =
      (s.active.containsValue id, s) := rfl
  have hother : ¬ (JobState.active = .failed ∨ JobState.active = .completed) := by decide
  simp only [relocate, if_neg hother, hfound]
  cases s.active.containsValue id with
  | true => rfl
  | false => exact getJob_removeItem _ _ _ (ofJobState_ne_job prev)

/-- Marking a job as active does not delete records, and it fails only for a missing one. -/
theorem moveJobToState_active_of_exists {q : Queue D R P} {id : ℕ}
    (hex : q.store.jobExists id = true) (prev : JobState) (clock : Clock) :
    (q.moveJobToState id prev .active none none none clock).1 = .ok () ∧
      (q.moveJobToState id prev .active none none none clock).2.store.jobExists id = true := by
  cases hpause : q.isPaused with
  | true => simp [moveJobToState, hpause, hex]
  | false =>
    rw [moveJobToState_eq hpause hex]
    refine ⟨rfl, ?_⟩
    have hjobs := getJob_setFields (relocate q.store id prev .active none clock) id
      (transitionFields (R := R) .active none none none) id
    rw [if_pos rfl, getJob_relocate_active] at hjobs
    have hsome := congrArg Option.isSome hjobs
    rw [Option.isSome_map] at hsome
    exact hsome.trans hex

theorem prepareJob_of_exists {q : Queue D R P} {id : ℕ} (hex : q.store.jobExists id = true)
    (token : JobToken) (opts : WorkerOpts) (clock : Clock) :
    ∃ job, (q.prepareJob token opts id clock).1 = .ok job := by
  obtain ⟨hok, hkept⟩ := moveJobToState_active_of_exists
    (q := { q with
      store := q.store.setLock (.lock id) (some token) opts.lockDuration clock.instant })
    hex ((q.store.getState id).getD default) clock
  unfold prepareJob prepareJobForProcessing
  dsimp only
  cases hm : moveJobToState { q with
      store := q.store.setLock (.lock id) (some token) opts.lockDuration clock.instant }
      id ((q.store.getState id).getD default) .active none none none clock with
  | mk res q' =>
    rw [hm] at hok hkept
    obtain rfl : res = .ok () := hok
    obtain ⟨job, hjob⟩ := Option.isSome_iff_exists.mp hkept
    have hset := q'.store.getJob_setFields id
      [.token token, .processedOn (castUnsigned clock.utc.timestampMicros)] id
    rw [if_pos rfl, hjob] at hset
    simp only [hset, Option.map_some]
    exact ⟨_, rfl⟩

theorem prepareJob_of_missing {q : Queue D R P} {id : ℕ} (hex : q.store.jobExists id = false)
    (token : JobToken) (opts : WorkerOpts) (clock : Clock) :
    (q.prepareJob token opts id clock).1 = .error .jobNotFound ∧
      (q.prepareJob token opts id clock).2.store.waiting = q.store.waiting ∧
      (q.prepareJob token opts id clock).2.store.prioritized = q.store.prioritized := by
  have hnone : q.store.getJob id = none := by simpa [jobExists] using hex
  cases hpause : q.isPaused with
  | true =>
    have hlocked : isPaused { q with
        store := q.store.setLock (.lock id) (some token) opts.lockDuration clock.instant } =
        true := hpause
    have hset := getJob_setFields
      (q.store.setLock (.lock id) (some token) opts.lockDuration clock.instant) id
      [.token token, .processedOn (castUnsigned clock.utc.timestampMicros)] id
    have hlock : (q.store.setLock (.lock id) (some token) opts.lockDuration clock.instant).getJob
        id = none := hnone
    rw [if_pos rfl, hlock, Option.map_none] at hset
    simp only [prepareJob, prepareJobForProcessing, moveJobToState, hlocked, if_true, hset,
      true_and]
    exact ⟨rfl, rfl⟩
  | false =>
    have hmissing := moveJobToState_missing
      (q := { q with
        store := q.store.setLock (.lock id) (some token) opts.lockDuration clock.instant })
      hpause hex ((q.store.getState id).getD default) .active none none none clock
    simp only [prepareJob, prepareJobForProcessing, hmissing, true_and]
    exact ⟨rfl, rfl⟩

theorem moveToActive_cases (q : Queue D R P) (token : JobToken) (opts : WorkerOpts)
    (clock : Clock) :
    (q.store.nextToFetch = none ∧ ∃ found, (q.moveToActive token opts clock).1 = .ok found) ∨
      ∃ id s, q.store.nextToFetch = some id ∧ s.jobs = q.store.jobs ∧
        (s.waiting.values ≠ q.store.waiting.values ∨ s.prioritized ≠ q.store.prioritized) ∧
        q.moveToActive token opts clock =
          ((prepareJob { q with store := s } token opts id clock).1.map .processJob,
            (prepareJob { q with store := s } token opts id clock).2) := by
  obtain ⟨hlast, hrest, hjobs⟩ := q.store.popBackPushFront_spec
  unfold moveToActive
  cases hp : q.store.popBackPushFront .wait .active with
  | mk found s =>
    rw [hp] at hlast hrest hjobs
    dsimp only at hlast hrest hjobs
    cases found with
    | some id =>
      right
      refine ⟨id, s, by simp [nextToFetch, ← hlast], hjobs, Or.inl fun heq => ?_, rfl⟩
      -- a list is not the same as the list without its last element
      rw [hrest] at heq
      have hlength := congrArg List.length heq
      have hmem := List.length_pos_of_mem (List.mem_of_getLast? hlast.symm)
      rw [List.length_dropLast] at hlength
      omega
    | none =>
      obtain rfl := popBackPushFront_none hp
      dsimp only
      cases hfront : q.store.prioritized.front? with
      | none =>
        left
        simp only [moveJobFromPriortyToActive_empty hfront]
        exact ⟨by simp [nextToFetch, ← hlast, hfront], _, rfl⟩
      | some e =>
        right
        simp only [moveJobFromPriortyToActive_front hfront]
        refine ⟨e.2, { q.store with
          prioritized := q.store.prioritized.remove e.1
          active := q.store.active.pushFront e.2 },
          by simp [nextToFetch, ← hlast, hfront], rfl, Or.inr fun heq => ?_, rfl⟩
        -- the removed score is not in the map any more
        have hmem : e ∈ q.store.prioritized.entries := List.mem_of_mem_head? hfront
        dsimp only at heq
        rw [← heq] at hmem
        simp [OrderedMap.remove] at hmem

/-- A failed fetch changes nothing just if it cannot fail: the next id has a record. -/
theorem failedDispatch_untouched_iff (q : Queue D R P) (token : JobToken) (opts : WorkerOpts)
    (clock : Clock) :
    (∀ e, (q.moveToActive token opts clock).1 = .error e →
      Untouched q.store (q.moveToActive token opts clock).2.store) ↔
      ∀ id, q.store.nextToFetch = some id → q.store.jobExists id = true := by
  rcases q.moveToActive_cases token opts clock with
    ⟨hnone, found, hok⟩ | ⟨id, s, hid, hjobs, hmoved, heq⟩
  · simp [hnone, hok]
  · have hexists : s.jobExists id = q.store.jobExists id := by simp only [jobExists, getJob, hjobs]
    rw [heq]
    constructor
    · intro h id' hid'
      obtain rfl : id = id' := Option.some.inj (hid.symm.trans hid')
      by_contra hmissing
      rw [Bool.not_eq_true, ← hexists] at hmissing
      obtain ⟨herror, hwaiting, hprioritized⟩ := prepareJob_of_missing
        (q := { q with store := s }) hmissing token opts clock
      have hsame := h .jobNotFound (by simp only [herror, Except.map])
      rcases hmoved with hmoved | hmoved
      · exact hmoved ((congrArg ConcurrentDeque.values hwaiting).symm.trans hsame.waiting)
      · exact hmoved (hprioritized.symm.trans hsame.prioritized)
    · intro h e herror
      obtain ⟨job, hjob⟩ := prepareJob_of_exists (q := { q with store := s })
        (hexists.trans (h id hid)) token opts clock
      simp [hjob, Except.map] at herror

/-- A job whose record was deleted while it was waiting. -/
def deletedJob : Queue Unit Unit Unit :=
  let q := ((Queue.new (.new none "mail") none 1).bulkAdd [("a", none, ())] ⟨0, 0⟩).2
  q.cleanUpJob 1 (some (.bool true)) ⟨0, 0⟩

/-- The fetch of it fails, and the id is left in the active list, with a lock. -/
theorem failedDispatch_leaves_active :
    let out := deletedJob.moveToActive ⟨0, 0, 0⟩ {} ⟨0, 0⟩
    out.1.isOk = false ∧ ¬ Untouched deletedJob.store out.2.store ∧
      deletedJob.store.waiting.values = [1] ∧ out.2.store.waiting.values = [] ∧
      out.2.store.active.values = [1] ∧ (out.2.store.getToken 1 0).1 = some ⟨0, 0, 0⟩ := by
  refine ⟨by decide +kernel, fun h => ?_, by decide +kernel, by decide +kernel,
    by decide +kernel, by decide +kernel⟩
  have hwaiting := h.waiting
  revert hwaiting
  decide +kernel

end Queue

end Kiomq
