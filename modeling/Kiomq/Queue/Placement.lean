import Kiomq.Queue.Transitions

/-!
# Where a job is filed and what its record says

Seven collections of the store file job ids, and each of them stands for one state. The
record of a job has a state of its own. For every operation on a job: which id it files
anew and where, and whose recorded state it changes.
-/

namespace Kiomq

open Foundations

variable {D R P : Type}

inductive Place
  | waiting
  | paused
  | prioritized
  | delayed
  | active
  | completed
  | failed
  deriving DecidableEq, Repr

namespace Place

def state : Place → JobState
  | waiting => .wait
  | paused => .paused
  | prioritized => .prioritized
  | delayed => .delayed
  | active => .active
  | completed => .completed
  | failed => .failed

def suffix : Place → CollectionSuffix
  | waiting => .wait
  | paused => .paused
  | prioritized => .prioritized
  | delayed => .delayed
  | active => .active
  | completed => .completed
  | failed => .failed

/-- The collections of jobs that are still to be fetched. -/
def isShelf : Place → Bool
  | waiting => true
  | paused => true
  | prioritized => true
  | delayed => true
  | _ => false

theorem state_injective : Function.Injective state := by
  intro p p' h
  cases p <;> cases p' <;> simp_all [state]

theorem ofJobState_state (p : Place) : CollectionSuffix.ofJobState p.state = p.suffix := by
  cases p <;> rfl

end Place

namespace InMemoryStore

def filed (s : InMemoryStore D R P) : Place → List ℕ
  | .waiting => s.waiting.values
  | .paused => s.paused.values
  | .prioritized => s.prioritized.values
  | .delayed => s.delayed.values
  | .active => s.active.values
  | .completed => s.completed.values
  | .failed => s.failed.values

theorem mem_filed_active (s : InMemoryStore D R P) (j : ℕ) :
    j ∈ s.filed .active ↔ s.activeCount j ≠ 0 := by
  rw [← Nat.pos_iff_ne_zero]
  exact List.count_pos_iff.symm

theorem exists_shelf_iff (s : InMemoryStore D R P) (j : ℕ) :
    (∃ p : Place, p.isShelf = true ∧ j ∈ s.filed p) ↔ s.shelved j ≠ 0 := by
  have hcount : ∀ l : List ℕ, j ∈ l ↔ 0 < l.count j := fun l => List.count_pos_iff.symm
  unfold shelved
  constructor
  · rintro ⟨p, hp, hj⟩
    rw [hcount] at hj
    cases p with
    | waiting | paused | prioritized | delayed =>
      simp only [filed] at hj
      omega
    | active | completed | failed => simp [Place.isShelf] at hp
  · intro h
    by_cases hw : 0 < s.waiting.values.count j
    · exact ⟨.waiting, rfl, (hcount _).mpr hw⟩
    by_cases hp : 0 < s.paused.values.count j
    · exact ⟨.paused, rfl, (hcount _).mpr hp⟩
    by_cases hr : 0 < s.prioritized.values.count j
    · exact ⟨.prioritized, rfl, (hcount _).mpr hr⟩
    have hd : 0 < s.delayed.values.count j := by omega
    exact ⟨.delayed, rfl, (hcount _).mpr hd⟩

/-! ### Three kinds of change -/

/-- No id has been filed anew and no record has got another state. -/
structure Fewer (s t : InMemoryStore D R P) : Prop where
  filed : ∀ p j, j ∈ t.filed p → j ∈ s.filed p
  state : ∀ j state, t.getState j = some state → s.getState j = some state
  lastId : s.idCounter ≤ t.idCounter

/-- At most `id` has been filed anew, at `place`, and no record has got another state. -/
structure Entered (s t : InMemoryStore D R P) (id : ℕ) (place : Place) : Prop where
  filed : ∀ p j, j ∈ t.filed p → j ∈ s.filed p ∨ j = id ∧ p = place
  state : ∀ j state, t.getState j = some state → s.getState j = some state
  lastId : s.idCounter ≤ t.idCounter

/-- At most `id` has been filed anew, at `place`, and its record, if it has one, has got the
state of that collection. -/
structure Refiled (s t : InMemoryStore D R P) (id : ℕ) (place : Place) : Prop where
  filed : ∀ p j, j ∈ t.filed p → j ∈ s.filed p ∨ j = id ∧ p = place
  state_of_ne : ∀ j state, j ≠ id → t.getState j = some state → s.getState j = some state
  state_self : ∀ state, t.getState id = some state → state = place.state
  lastId : s.idCounter ≤ t.idCounter

theorem Fewer.of_eq {s t : InMemoryStore D R P} (hfiled : t.filed = s.filed)
    (hstate : t.getState = s.getState) (hlast : s.idCounter ≤ t.idCounter) : Fewer s t := by
  constructor
  · intro p j hj
    rwa [← hfiled]
  · intro j state hj
    rwa [← hstate]
  · exact hlast

theorem Fewer.refl (s : InMemoryStore D R P) : Fewer s s := .of_eq rfl rfl le_rfl

theorem Fewer.trans {s t u : InMemoryStore D R P} (h : Fewer s t) (h' : Fewer t u) : Fewer s u :=
  ⟨fun p j hj => h.filed p j (h'.filed p j hj),
    fun j state hj => h.state j state (h'.state j state hj), h.lastId.trans h'.lastId⟩

theorem Fewer.entered {s t : InMemoryStore D R P} (h : Fewer s t) (id : ℕ) (place : Place) :
    Entered s t id place :=
  ⟨fun p j hj => Or.inl (h.filed p j hj), h.state, h.lastId⟩

theorem Fewer.trans_entered {s t u : InMemoryStore D R P} {id : ℕ} {place : Place}
    (h : Fewer s t) (h' : Entered t u id place) : Entered s u id place :=
  ⟨fun p j hj => (h'.filed p j hj).imp_left (h.filed p j),
    fun j state hj => h.state j state (h'.state j state hj), h.lastId.trans h'.lastId⟩

theorem Entered.refiled {s t u : InMemoryStore D R P} {id : ℕ} {place : Place}
    (h : Entered s t id place) (h' : Refiled t u id place) : Refiled s u id place := by
  constructor
  · intro p j hj
    rcases h'.filed p j hj with hj | hj
    · exact h.filed p j hj
    · exact Or.inr hj
  · intro j state hne hj
    exact h.state j state (h'.state_of_ne j state hne hj)
  · exact h'.state_self
  · exact h.lastId.trans h'.lastId

theorem Refiled.fewer {s t u : InMemoryStore D R P} {id : ℕ} {place : Place}
    (h : Refiled s t id place) (h' : Fewer t u) : Refiled s u id place :=
  ⟨fun p j hj => h.filed p j (h'.filed p j hj),
    fun j state hne hj => h.state_of_ne j state hne (h'.state j state hj),
    fun state hj => h.state_self state (h'.state id state hj), h.lastId.trans h'.lastId⟩

theorem Entered.refiled_of_missing {s t : InMemoryStore D R P} {id : ℕ} {place : Place}
    (h : Entered s t id place) (hmissing : t.getState id = none) : Refiled s t id place :=
  ⟨h.filed, fun j state _ hj => h.state j state hj, fun state hj => by simp [hmissing] at hj,
    h.lastId⟩

/-! ### The operations of the store -/

theorem fewer_publishEvent (s : InMemoryStore D R P) (event : QueueStreamEvent R P) :
    Fewer s (s.publishEvent event) :=
  .of_eq (by funext p; cases p <;> rfl) rfl le_rfl

theorem fewer_setLock (s : InMemoryStore D R P) (col : CollectionSuffix)
    (token : Option JobToken) (duration now : ℕ) : Fewer s (s.setLock col token duration now) :=
  .of_eq (by funext p; cases p <;> rfl) rfl le_rfl

theorem fewer_getToken (s : InMemoryStore D R P) (id now : ℕ) : Fewer s (s.getToken id now).2 :=
  .of_eq (by funext p; cases p <;> rfl) rfl le_rfl

theorem fewer_incr_metaKey (s : InMemoryStore D R P) (delta : ℤ) (field : Option HashField) :
    Fewer s (s.incr .metaKey delta field).2 :=
  .of_eq (by funext p; cases p <;> rfl) rfl le_rfl

theorem fewer_expire (s : InMemoryStore D R P) (col : CollectionSuffix) (secs : ℤ) (now : ℕ) :
    Fewer s (s.expire col secs now) := by
  cases col <;> exact .of_eq (by funext p; cases p <;> rfl) rfl le_rfl

theorem fewer_remove_job (s : InMemoryStore D R P) (id : ℕ) : Fewer s (s.remove (.job id)) := by
  constructor
  · intro p j hj
    cases p <;> exact hj
  · intro j state hj
    simp only [getState, getJob, remove, RecordMap.get_remove, CollectionSuffix.job.injEq] at hj
    split_ifs at hj
    · simp at hj
    · exact hj
  · exact le_rfl

theorem mem_values_filter {m : OrderedMap ℕ ℕ} {keep : ℕ × ℕ → Bool} {j : ℕ}
    (h : j ∈ (m.filter keep).values) : j ∈ m.values := by
  obtain ⟨e, he, rfl⟩ := List.mem_map.mp h
  exact List.mem_map_of_mem (List.mem_of_mem_filter he)

theorem mem_values_removeScored {m : OrderedMap ℕ ℕ} {item j : ℕ}
    (h : j ∈ (removeScored m item).values) : j ∈ m.values := by
  unfold removeScored at h
  split_ifs at h
  · exact mem_values_filter h
  · exact mem_values_filter h

theorem mem_values_insert {m : OrderedMap ℕ ℕ} {key item j : ℕ}
    (h : j ∈ (m.insert key item).values) : j ∈ m.values ∨ j = item := by
  obtain ⟨e, he, rfl⟩ := List.mem_map.mp h
  rcases (m.mem_insert _ _ _).mp he with rfl | ⟨he, -⟩
  · exact Or.inr rfl
  · exact Or.inl (List.mem_map_of_mem he)

theorem mem_values_dequeFilter {d : ConcurrentDeque ℕ} {keep : ℤ × ℕ → Bool} {j : ℕ}
    (h : j ∈ (d.filter keep).values) : j ∈ d.values := by
  obtain ⟨e, he, rfl⟩ := List.mem_map.mp h
  exact List.mem_map_of_mem (List.mem_of_mem_filter he)

theorem filed_removeItem (s : InMemoryStore D R P) (col : CollectionSuffix) (i : ℕ) (p : Place)
    (j : ℕ) (hj : j ∈ (s.removeItem col i).filed p) : j ∈ s.filed p := by
  cases col with
  | active | wait | paused => cases p <;> first | exact hj | exact mem_values_dequeFilter hj
  | completed | failed | prioritized | delayed =>
    cases p <;> first | exact hj | exact mem_values_removeScored hj
  | _ => cases p <;> exact hj

theorem fewer_removeItem (s : InMemoryStore D R P) (state : JobState) (i : ℕ) :
    Fewer s (s.removeItem (.ofJobState state) i) := by
  have hlast : (s.removeItem (.ofJobState state) i).idCounter = s.idCounter := by
    cases state <;> rfl
  refine ⟨s.filed_removeItem (.ofJobState state) i, fun j st hj => ?_, hlast.ge⟩
  have hjobs := s.getJob_removeItem (.ofJobState state) i (Queue.ofJobState_ne_job state)
  rwa [getState, hjobs] at hj

theorem getState_addItem (s : InMemoryStore D R P) (col : CollectionSuffix) (i : ℕ)
    (score : Option ℤ) (append : Bool) :
    (s.addItem col i score append).getState = s.getState := by
  cases col <;> rfl

theorem filed_addItem (s : InMemoryStore D R P) (place : Place) (i : ℕ) (score : Option ℤ)
    (append : Bool) (p : Place) (j : ℕ)
    (hj : j ∈ (s.addItem place.suffix i score append).filed p) :
    j ∈ s.filed p ∨ j = i ∧ p = place := by
  have hpush : ∀ d : ConcurrentDeque ℕ,
      j ∈ (if append then d.pushFront i else d.pushBack i).values → j ∈ d.values ∨ j = i := by
    intro d hd
    cases append with
    | true => simpa [or_comm] using hd
    | false => simpa using hd
  have hscore : ∀ m : OrderedMap ℕ ℕ,
      j ∈ (score.elim m fun x => m.insert (castUnsigned x) i).values → j ∈ m.values ∨ j = i := by
    intro m hm
    cases score with
    | none => exact Or.inl hm
    | some x => exact mem_values_insert hm
  by_cases hp : p = place
  · subst hp
    have hcases : j ∈ s.filed p ∨ j = i := by
      cases p with
      | waiting => exact hpush _ hj
      | paused => exact hpush _ hj
      | active => exact hpush _ hj
      | prioritized => exact hscore _ hj
      | delayed => exact hscore _ hj
      | completed => exact hscore _ hj
      | failed => exact hscore _ hj
    exact hcases.imp_right fun h => ⟨h, rfl⟩
  · left
    cases place <;> cases p <;> first | exact hj | exact absurd rfl hp

theorem entered_addItem (s : InMemoryStore D R P) (place : Place) (i : ℕ) (score : Option ℤ)
    (append : Bool) : Entered s (s.addItem place.suffix i score append) i place := by
  have hlast : (s.addItem place.suffix i score append).idCounter = s.idCounter := by
    cases place <;> rfl
  refine ⟨s.filed_addItem place i score append, fun j state hj => ?_, hlast.ge⟩
  rwa [getState_addItem] at hj

theorem fewer_incr_attempts (s : InMemoryStore D R P) (id : ℕ) :
    Fewer s (s.incr (.job id) 1 (some .attemptsMade)).2 := by
  refine .of_eq (by funext p; cases p <;> rfl) ?_ le_rfl
  funext j
  have hmodify := s.getJob_modify id (fun job => incrJob job .attemptsMade 1) j
  have hstate := congrArg (Option.map Job.state) hmodify
  refine Eq.trans hstate ?_
  split_ifs
  · rw [Option.map_map]
    rfl
  · rfl

theorem state_foldl_setField (job : Job D R P) (fields : List (JobField R))
    (h : ∀ field ∈ fields, ∀ state, field ≠ .state state) :
    (fields.foldl Job.setField job).state = job.state := by
  induction fields generalizing job with
  | nil => rfl
  | cons field rest ih =>
    rw [List.foldl_cons, ih _ fun f hf => h f (List.mem_cons_of_mem _ hf)]
    cases field with
    | state state => exact absurd rfl (h _ List.mem_cons_self state)
    | payload result => cases result <;> rfl
    | _ => rfl

theorem fewer_setFields (s : InMemoryStore D R P) (id : ℕ) (fields : List (JobField R))
    (h : ∀ field ∈ fields, ∀ state, field ≠ .state state) : Fewer s (s.setFields id fields) := by
  refine .of_eq (by funext p; cases p <;> rfl) ?_ le_rfl
  funext j
  simp only [getState]
  rw [getJob_setFields]
  split_ifs
  · rw [Option.map_map]
    congr 1
    funext job
    exact state_foldl_setField job fields h
  · rfl

theorem refiled_setFields (s : InMemoryStore D R P) (id : ℕ) (place : Place)
    (fields : List (JobField R)) (h : ∀ field ∈ fields, ∀ state, field ≠ .state state) :
    Refiled s (s.setFields id (.state place.state :: fields)) id place := by
  constructor
  · intro p j hj
    left
    cases p <;> exact hj
  · intro j state hne hj
    simp only [getState] at hj ⊢
    rwa [getJob_setFields, if_neg hne] at hj
  · intro state hj
    simp only [getState] at hj
    rw [getJob_setFields, if_pos rfl, Option.map_map] at hj
    obtain ⟨job, -, rfl⟩ := Option.map_eq_some_iff.mp hj
    exact state_foldl_setField _ fields h
  · exact le_rfl

theorem fewer_getDelayedAt (s : InMemoryStore D R P) (start stop : ℤ) :
    Fewer s (s.getDelayedAt start stop).2 := by
  refine ⟨fun p j hj => ?_, fun j state hj => hj, le_rfl⟩
  cases p with
  | delayed => exact mem_values_filter (mem_values_filter hj)
  | _ => exact hj

theorem mem_delayed_of_mem_getDelayedAt (s : InMemoryStore D R P) (start stop : ℤ) {j : ℕ}
    (h : j ∈ (s.getDelayedAt start stop).1.1 ++ (s.getDelayedAt start stop).1.2) :
    j ∈ s.filed .delayed := by
  rcases List.mem_append.mp h with h | h
  · exact mem_values_filter h
  · exact mem_values_filter (mem_values_filter h)

theorem filed_pause (s : InMemoryStore D R P) (b : Bool) (p : Place) (j : ℕ)
    (hj : j ∈ (s.pause b).filed p) :
    j ∈ s.filed p ∨ j ∈ (if b then s.waiting else s.paused).values := by
  cases b with
  | true =>
    obtain ⟨hsrc, hdst⟩ := ConcurrentDeque.drainInto_len s.waiting s.paused
    cases p with
    | waiting =>
      simp only [filed, pause, if_true, hsrc] at hj
      cases hj
    | paused =>
      simp only [filed, pause, if_true, hdst] at hj
      exact List.mem_append.mp hj
    | _ => exact Or.inl hj
  | false =>
    obtain ⟨hsrc, hdst⟩ := ConcurrentDeque.drainInto_len s.paused s.waiting
    cases p with
    | paused =>
      simp only [filed, pause, Bool.false_eq_true, if_false, hsrc] at hj
      cases hj
    | waiting =>
      simp only [filed, pause, Bool.false_eq_true, if_false, hdst] at hj
      exact List.mem_append.mp hj
    | _ => exact Or.inl hj

theorem Activated.getState_eq_some {s t : InMemoryStore D R P} {id : ℕ} {state : JobState}
    (h : Activated s t id) (hstate : t.getState id = some state) :
    ∃ before, s.getState id = some before := by
  have hrecord := congrFun h.record id
  rw [Function.update_self] at hrecord
  obtain ⟨job, hjob, -⟩ := Option.map_eq_some_iff.mp hstate
  rw [recordView, hjob, Option.map_some, recordView] at hrecord
  cases hs : s.getJob id with
  | none => simp [hs] at hrecord
  | some before => exact ⟨before.state, by simp [getState, hs]⟩

/-! ### Insertion -/

theorem entered_place (s : InMemoryStore D R P) (a : Admission D R P) (pc id : ℕ)
    (hwait : a.job.state = .wait) :
    ∃ place : Place, Entered s (s.place a pc id false).2 id place ∧ place.isShelf = true ∧
      (s.place a pc id false).1.1 = place.state := by
  by_cases hd : 0 < a.delay
  · cases he : a.expected with
    | none =>
      simp only [place, if_pos hd, he]
      exact ⟨.waiting, (Fewer.refl s).entered id _, rfl, hwait⟩
    | some due =>
      simp only [place, if_pos hd, he]
      exact ⟨.delayed, s.entered_addItem .delayed id (some due) false, rfl, rfl⟩
  · by_cases hp : 0 < a.job.opts.priority
    · simp only [place, if_neg hd, if_pos hp]
      exact ⟨.prioritized, s.entered_addItem .prioritized id _ true, rfl, rfl⟩
    · simp only [place, if_neg hd, if_neg hp]
      exact ⟨.waiting, s.entered_addItem .waiting id none true, rfl, hwait⟩

theorem refiled_storeRecord (s : InMemoryStore D R P) (id : ℕ) (job : Job D R P) {place : Place}
    (h : job.state = place.state) : Refiled s (s.storeRecord id job) id place := by
  have hget : ∀ j, (s.storeRecord id job).getState j =
      if j = id then some job.state else s.getState j := by
    intro j
    simp only [getState, getJob, storeRecord, RecordMap.get_insertConstant,
      CollectionSuffix.job.injEq]
    split_ifs <;> rfl
  constructor
  · intro p j hj
    left
    cases p <;> exact hj
  · intro j state hne hj
    rwa [hget, if_neg hne] at hj
  · intro state hj
    rw [hget, if_pos rfl] at hj
    exact (Option.some.inj hj).symm.trans h
  · exact le_rfl

theorem refiled_insert (s : InMemoryStore D R P) (job : Job D R P) (hwait : job.state = .wait)
    (opts : JobOptions) (pc id : ℕ) (name : String) (clock : Clock) :
    (s.insert job opts pc id name false clock).2 = s ∨
      ∃ place : Place, place.isShelf = true ∧
        Refiled s (s.insert job opts pc id name false clock).2 id place := by
  unfold InMemoryStore.insert
  cases hcheck : checkOptions job opts clock.utc with
  | error e => exact Or.inl rfl
  | ok a =>
    right
    obtain ⟨-, -, hstate⟩ := checkOptions_spec hcheck
    obtain ⟨place, henter, hshelf, hplace⟩ := s.entered_place a pc id (hstate.trans hwait)
    have hstored := (s.place a pc id false).2.refiled_storeRecord id
      { a.job with state := (s.place a pc id false).1.1, id := some id } hplace
    exact ⟨place, hshelf, (henter.refiled hstored).fewer (fewer_publishEvent _ _)⟩

theorem idCounter_addOne (s : InMemoryStore D R P) (item : NewJob D) (queueOpts : QueueOpts)
    (isPaused : Bool) (clock : Clock) :
    (s.addOne item queueOpts isPaused clock).2.idCounter = s.idCounter + 1 := by
  rcases s.addOne_spec item queueOpts isPaused clock with ⟨e, counter, heq⟩ | ⟨job, t, heq, h⟩
  · rw [heq]
  · rw [heq]
    exact h.lastId

theorem refiled_addOne (s : InMemoryStore D R P) (item : NewJob D) (queueOpts : QueueOpts)
    (clock : Clock) :
    (∃ counter, (s.addOne item queueOpts false clock).2 =
        { s with priorityCounter := counter, idCounter := s.idCounter + 1 }) ∨
      ∃ place : Place, place.isShelf = true ∧
        Refiled s (s.addOne item queueOpts false clock).2 (s.idCounter + 1) place := by
  obtain ⟨pc, counter, heq⟩ := s.addOne_eq item queueOpts false clock
  have hcounters : Fewer s { s with priorityCounter := counter, idCounter := s.idCounter + 1 } :=
    .of_eq (by funext p; cases p <;> rfl) rfl (Nat.le_succ _)
  rw [heq]
  rcases refiled_insert { s with priorityCounter := counter, idCounter := s.idCounter + 1 }
    (Job.new item.1 (some item.2.2) (updateJobOpts queueOpts (item.2.1.getD {})).id
      (some (s.keyPrefix ++ ":" ++ s.name)) clock.utc) rfl
    (updateJobOpts queueOpts (item.2.1.getD {})) pc (s.idCounter + 1) item.1 clock with
    hsame | ⟨place, hshelf, hrefiled⟩
  · exact Or.inl ⟨counter, hsame⟩
  · exact Or.inr ⟨place, hshelf, (hcounters.entered _ place).refiled hrefiled⟩

end InMemoryStore

namespace Queue

open InMemoryStore

/-! ### Transitions -/

theorem entered_relocate (s : InMemoryStore D R P) (id : ℕ) (prev : JobState) (place : Place)
    (ts : Option ℤ) (clock : Clock) :
    Entered s (relocate s id prev place.state ts clock) id place := by
  unfold relocate
  simp only [Place.ofJobState_state]
  split_ifs
  · have hincr := s.fewer_incr_attempts id
    have hremove := fewer_removeItem (s.incr (.job id) 1 (some .attemptsMade)).2 prev id
    exact (hincr.trans hremove).trans_entered (entered_addItem _ place id _ false)
  · have hsame : (s.existsIn place.suffix id clock.instant).2 = s := by cases place <;> rfl
    rw [hsame]
    exact (Fewer.refl s).entered id place
  · have hsame : (s.existsIn place.suffix id clock.instant).2 = s := by cases place <;> rfl
    rw [hsame]
    exact (s.fewer_removeItem prev id).trans_entered (entered_addItem _ place id _ false)

theorem refiled_moveJobToState {q : Queue D R P} (hpause : q.isPaused = false) (id : ℕ)
    (prev : JobState) (place : Place) (value : Option (ProcessedResult R)) (ts : Option ℤ)
    (backtrace : Option Trace) (clock : Clock) :
    Refiled q.store
      (q.moveJobToState id prev place.state value ts backtrace clock).2.store id place := by
  cases hex : q.store.jobExists id with
  | true =>
    obtain ⟨rest, hfields, hrest⟩ := transitionFields_tail place.state value ts backtrace
    rw [moveJobToState_eq hpause hex, hfields]
    have hset := refiled_setFields (relocate q.store id prev place.state ts clock) id place rest
      hrest
    exact ((entered_relocate q.store id prev place ts clock).refiled hset).fewer
      (fewer_publishEvent _ _)
  | false =>
    have hmissing : q.store.getState id = none := by
      simpa [jobExists, getState] using hex
    rw [moveJobToState_missing hpause hex]
    exact ((Fewer.refl q.store).entered id place).refiled_of_missing hmissing

theorem refiled_moveJobToFinishedOrFailed {q : Queue D R P} (hpause : q.isPaused = false) (id : ℕ)
    (ts : ℤ) (token : JobToken) (place : Place) (processed : ProcessedResult R)
    (backtrace : Option Trace) (clock : Clock) :
    Refiled q.store
      (q.moveJobToFinishedOrFailed id ts token place.state processed backtrace clock).2.store
      id place := by
  rw [moveJobToFinishedOrFailed_snd]
  exact refiled_moveJobToState hpause id _ place (some processed) (some ts) backtrace clock

theorem id_moveJobToFinishedOrFailed (q : Queue D R P) (id : ℕ) (ts : ℤ) (token : JobToken)
    (next : JobState) (processed : ProcessedResult R) (backtrace : Option Trace) (clock : Clock) :
    (q.moveJobToFinishedOrFailed id ts token next processed backtrace clock).2.id = q.id := by
  rw [moveJobToFinishedOrFailed_snd]
  unfold moveJobToState
  split_ifs <;> rfl

theorem refiled_prepareJob {q : Queue D R P} (hpause : q.isPaused = false) (token : JobToken)
    (opts : WorkerOpts) (id : ℕ) (clock : Clock) :
    Refiled q.store (q.prepareJob token opts id clock).2.store id .active := by
  have hlock := q.store.fewer_setLock (.lock id) (some token) opts.lockDuration clock.instant
  have hmove := refiled_moveJobToState
    (q := { q with
      store := q.store.setLock (.lock id) (some token) opts.lockDuration clock.instant })
    hpause id ((q.store.getState id).getD default) .active none none none clock
  have hboth := (hlock.entered id .active).refiled hmove
  unfold prepareJob prepareJobForProcessing
  dsimp only
  split
  · next heq =>
    have hstore := congrArg (fun out => out.2.store) heq
    exact hstore ▸ hboth
  · next q' heq =>
    have hstore := congrArg (fun out => out.2.store) heq
    have hset := q'.store.fewer_setFields id
      [.token token, .processedOn (castUnsigned clock.utc.timestampMicros)] (by simp)
    have hafter := (hstore ▸ hboth : Refiled q.store q'.store id .active).fewer hset
    split <;> exact hafter

theorem entered_popBackPushFront {s t : InMemoryStore D R P} {id : ℕ}
    (h : s.popBackPushFront .wait .active = (some id, t)) : Entered s t id .active := by
  obtain ⟨waiting, hp, rfl⟩ := popBackPushFront_cases h
  have hrest : waiting.values = s.waiting.values.dropLast := by
    rw [← s.waiting.values_popBack, hp]
  refine ⟨fun p j hj => ?_, fun j state hj => hj, le_rfl⟩
  cases p with
  | waiting =>
    simp only [filed, hrest] at hj
    exact Or.inl (List.mem_of_mem_dropLast hj)
  | active =>
    simp only [filed, ConcurrentDeque.values_pushFront, List.mem_cons] at hj
    exact hj.symm.imp_right fun h => ⟨h, rfl⟩
  | _ => exact Or.inl hj

theorem entered_moveJobFromPriortyToActive {q q' : Queue D R P} {id : ℕ}
    (h : q.moveJobFromPriortyToActive = (some id, q')) : Entered q.store q'.store id .active := by
  obtain ⟨score, es, rest, hp, rfl⟩ := moveJobFromPriortyToActive_cases h
  have hcount := popScored_cons hp
  have hfewer : Fewer q.store { q.store with prioritized := rest } := by
    refine ⟨fun p j hj => ?_, fun j state hj => hj, le_rfl⟩
    cases p with
    | prioritized =>
      have hpos : 0 < rest.values.count j := List.count_pos_iff.mpr hj
      have hj' := hcount j
      have hpos' : 0 < q.store.prioritized.values.count j := by omega
      exact List.count_pos_iff.mp hpos'
    | _ => exact hj
  exact hfewer.trans_entered (entered_addItem _ .active id none true)

theorem refiled_moveToActive {q : Queue D R P} (hpause : q.isPaused = false) (token : JobToken)
    (opts : WorkerOpts) (clock : Clock) :
    (q.moveToActive token opts clock).2 = q ∨
      ∃ id t, (q.moveToActive token opts clock).2 = { q with store := t } ∧
        Activated q.store t id ∧ Refiled q.store t id .active := by
  unfold moveToActive
  cases hp : q.store.popBackPushFront .wait .active with
  | mk found s =>
    cases found with
    | some id =>
      have hpop := popBackPushFront_some hp
      obtain ⟨t, ht, hact, -⟩ := prepareJob_popped hpause hpop token opts clock
      have hfiled := refiled_prepareJob (q := { q with store := s })
        ((congrArg QueueMetrics.isPaused hpop.cached).trans hpause) token opts id clock
      rw [ht] at hfiled
      exact Or.inr ⟨id, t, ht, hact, (entered_popBackPushFront hp).refiled hfiled⟩
    | none =>
      obtain rfl := popBackPushFront_none hp
      cases hm : q.moveJobFromPriortyToActive with
      | mk found q' =>
        cases found with
        | none =>
          obtain rfl := moveJobFromPriortyToActive_none hm
          simp [hm]
        | some id =>
          have henter := entered_moveJobFromPriortyToActive hm
          obtain ⟨s, rfl, hpop⟩ := moveJobFromPriortyToActive_some hm
          obtain ⟨t, ht, hact, -⟩ := prepareJob_popped hpause hpop token opts clock
          have hfiled := refiled_prepareJob (q := { q with store := s })
            ((congrArg QueueMetrics.isPaused hpop.cached).trans hpause) token opts id clock
          rw [ht] at hfiled
          simp only [hm]
          exact Or.inr ⟨id, t, ht, hact, henter.refiled hfiled⟩

/-! ### After a finished job -/

theorem fewer_updateProcessingCount (q : Queue D R P) (increment : Bool) (workerId : Uuid)
    (id : ℕ) (state : JobState) :
    Fewer q.store (q.updateProcessingCount increment workerId id state).2.store :=
  (q.store.fewer_incr_metaKey _ _).trans (fewer_publishEvent _ _)

theorem fewer_releaseTask (q : Queue D R P) (handle : Option ℕ) (workerId : Uuid) (id : ℕ)
    (state : JobState) : Fewer q.store (q.releaseTask handle workerId id state).store := by
  cases handle with
  | none => exact Fewer.refl _
  | some h => exact q.fewer_updateProcessingCount false workerId id state

theorem fewer_cleanUpJob (q : Queue D R P) (id : ℕ)
    (removeOptions : Option RemoveOnCompletionOrFailure) (clock : Clock) :
    Fewer q.store (q.cleanUpJob id removeOptions clock).store := by
  unfold cleanUpJob
  split
  · exact Fewer.refl _
  · split_ifs
    · exact q.store.fewer_remove_job id
    · exact Fewer.refl _
  · split_ifs
    · exact q.store.fewer_remove_job id
    · exact Fewer.refl _
  · next keep =>
    have hage : Fewer q.store
        (keep.age.elim q.store fun secs => q.store.expire (.job id) secs clock.instant) := by
      cases keep.age with
      | none => exact Fewer.refl _
      | some secs => exact q.store.fewer_expire (.job id) secs clock.instant
    dsimp only
    split_ifs
    · exact hage.trans (fewer_remove_job _ id)
    · exact hage

end Queue

end Kiomq
