import Kiomq.Stores.Insertion
import Kiomq.Queue.Custody

/-!
# What the store operations do to the places of a job

For every operation of the in-memory store: how the number of copies of an id in its
collections changes, and which records it writes. Operations that touch neither are
covered by equations that hold by definition.
-/

namespace Kiomq

open Foundations

variable {D R P : Type}

/-- The part of a record that decides who may hold the job. -/
def Job.view (job : Job D R P) : RecordView :=
  ⟨decide (job.state = .active), job.attemptsMade, job.opts.attempts, job.id⟩

theorem Job.view_setField (job : Job D R P) (field : JobField R)
    (h : ∀ state, field ≠ .state state) : (job.setField field).view = job.view := by
  cases field with
  | state state => exact absurd rfl (h state)
  | payload result => cases result <;> rfl
  | _ => rfl

theorem Job.view_foldl_setField (job : Job D R P) (fields : List (JobField R))
    (h : ∀ field ∈ fields, ∀ state, field ≠ .state state) :
    (fields.foldl Job.setField job).view = job.view := by
  induction fields generalizing job with
  | nil => rfl
  | cons field rest ih =>
    rw [List.foldl_cons, ih _ fun f hf => h f (List.mem_cons_of_mem _ hf)]
    exact job.view_setField field (h field (by simp))

namespace InMemoryStore

/-- Copies of an id in the wait, paused, prioritized and delayed collections. -/
def shelved (s : InMemoryStore D R P) (i : ℕ) : ℕ :=
  s.waiting.values.count i + s.paused.values.count i + s.prioritized.values.count i +
    s.delayed.values.count i

def activeCount (s : InMemoryStore D R P) (i : ℕ) : ℕ := s.active.values.count i

def recordView (s : InMemoryStore D R P) (i : ℕ) : Option RecordView := (s.getJob i).map Job.view

/-- The two stores agree in everything that the custody of jobs depends on. -/
structure Agree (s t : InMemoryStore D R P) : Prop where
  shelved : t.shelved = s.shelved
  active : t.activeCount = s.activeCount
  record : t.recordView = s.recordView
  lastId : t.idCounter = s.idCounter
  cached : t.storedMetrics.isPaused = s.storedMetrics.isPaused

theorem Agree.refl (s : InMemoryStore D R P) : Agree s s := ⟨rfl, rfl, rfl, rfl, rfl⟩

theorem Agree.trans {s t u : InMemoryStore D R P} (h : Agree s t) (h' : Agree t u) : Agree s u :=
  ⟨h'.shelved.trans h.shelved, h'.active.trans h.active, h'.record.trans h.record,
    h'.lastId.trans h.lastId, h'.cached.trans h.cached⟩

theorem agree_publishEvent (s : InMemoryStore D R P) (event : QueueStreamEvent R P) :
    Agree s (s.publishEvent event) := ⟨rfl, rfl, rfl, rfl, rfl⟩

theorem agree_setLock (s : InMemoryStore D R P) (col : CollectionSuffix)
    (token : Option JobToken) (duration now : ℕ) :
    Agree s (s.setLock col token duration now) := ⟨rfl, rfl, rfl, rfl, rfl⟩

theorem agree_getToken (s : InMemoryStore D R P) (id now : ℕ) :
    Agree s (s.getToken id now).2 := ⟨rfl, rfl, rfl, rfl, rfl⟩

theorem agree_incr_metaKey (s : InMemoryStore D R P) (delta : ℤ) (field : Option HashField) :
    Agree s (s.incr .metaKey delta field).2 := ⟨rfl, rfl, rfl, rfl, rfl⟩

theorem agree_expire (s : InMemoryStore D R P) (col : CollectionSuffix) (secs : ℤ) (now : ℕ) :
    Agree s (s.expire col secs now) := by
  cases col <;> exact ⟨rfl, rfl, rfl, rfl, rfl⟩

theorem getJob_modify (s : InMemoryStore D R P) (id : ℕ) (f : Job D R P → Job D R P) (j : ℕ) :
    ({ s with jobs := s.jobs.modify (.job id) f } : InMemoryStore D R P).getJob j =
      if j = id then (s.getJob j).map f else s.getJob j := by
  simp only [getJob, RecordMap.get_modify, CollectionSuffix.job.injEq]

theorem getJob_setFields (s : InMemoryStore D R P) (id : ℕ) (fields : List (JobField R)) (j : ℕ) :
    (s.setFields id fields).getJob j =
      if j = id then (s.getJob j).map fun job => fields.foldl Job.setField job
      else s.getJob j :=
  s.getJob_modify id _ j

theorem agree_setFields (s : InMemoryStore D R P) (id : ℕ) (fields : List (JobField R))
    (h : ∀ field ∈ fields, ∀ state, field ≠ .state state) : Agree s (s.setFields id fields) := by
  refine ⟨rfl, rfl, ?_, rfl, rfl⟩
  funext j
  unfold recordView
  rw [getJob_setFields]
  split_ifs with hj
  · rw [Option.map_map]
    congr 1
    funext job
    exact job.view_foldl_setField fields h
  · rfl

theorem recordView_setFields_state (s : InMemoryStore D R P) (id : ℕ) (state : JobState)
    (fields : List (JobField R)) (h : ∀ field ∈ fields, ∀ state, field ≠ .state state) :
    (s.setFields id (.state state :: fields)).recordView =
      Function.update s.recordView id
        ((s.recordView id).map fun r => { r with working := decide (state = .active) }) := by
  funext j
  by_cases hj : j = id
  · subst hj
    rw [Function.update_self]
    unfold recordView
    rw [getJob_setFields, if_pos rfl, Option.map_map, Option.map_map]
    congr 1
    funext job
    exact Job.view_foldl_setField _ fields h
  · rw [Function.update_of_ne hj]
    unfold recordView
    rw [getJob_setFields, if_neg hj]

/-! ### Adding and removing items -/

theorem count_cons_ite (i j : ℕ) (l : List ℕ) :
    (i :: l).count j = l.count j + if j = i then 1 else 0 := by
  rw [List.count_cons]
  simp only [beq_iff_eq, eq_comm (a := j)]

theorem shelved_addItem_wait (s : InMemoryStore D R P) (i j : ℕ) :
    (s.addItem .wait i none true).shelved j = s.shelved j + if j = i then 1 else 0 := by
  simp only [shelved, addItem, if_true, ConcurrentDeque.values_pushFront, count_cons_ite]
  omega

theorem shelved_addItem_paused (s : InMemoryStore D R P) (i j : ℕ) :
    (s.addItem .paused i none true).shelved j = s.shelved j + if j = i then 1 else 0 := by
  simp only [shelved, addItem, if_true, ConcurrentDeque.values_pushFront, count_cons_ite]
  omega

theorem shelved_addItem_prioritized_le (s : InMemoryStore D R P) (i : ℕ) (score : ℤ) (b : Bool)
    (j : ℕ) :
    (s.addItem .prioritized i (some score) b).shelved j ≤
      s.shelved j + if j = i then 1 else 0 := by
  have h := s.prioritized.count_values_insert_le (castUnsigned score) i j
  simp only [shelved, addItem, Option.elim_some]
  simp only [eq_comm (a := i)] at h
  omega

theorem shelved_addItem_delayed_le (s : InMemoryStore D R P) (i : ℕ) (score : ℤ) (b : Bool)
    (j : ℕ) :
    (s.addItem .delayed i (some score) b).shelved j ≤ s.shelved j + if j = i then 1 else 0 := by
  have h := s.delayed.count_values_insert_le (castUnsigned score) i j
  simp only [shelved, addItem, Option.elim_some]
  simp only [eq_comm (a := i)] at h
  omega

theorem activeCount_addItem_active (s : InMemoryStore D R P) (i j : ℕ) :
    (s.addItem .active i none true).activeCount j = s.activeCount j + if j = i then 1 else 0 := by
  simp only [activeCount, addItem, if_true, ConcurrentDeque.values_pushFront, count_cons_ite]

theorem count_removeScored_le (m : OrderedMap ℕ ℕ) (i j : ℕ) :
    (removeScored m i).values.count j ≤ m.values.count j := by
  unfold removeScored
  split_ifs
  · exact m.count_values_remove_le i j
  · exact m.count_values_filter_le _ j

theorem shelved_removeItem_le (s : InMemoryStore D R P) (col : CollectionSuffix) (i j : ℕ) :
    (s.removeItem col i).shelved j ≤ s.shelved j := by
  have hdeque : ∀ d : ConcurrentDeque ℕ, (d.filter fun e => e.2 ≠ i).values.count j ≤
      d.values.count j := by
    intro d
    rw [d.count_values_filter_ne]
    split_ifs <;> omega
  unfold shelved
  cases col with
  | wait => have := hdeque s.waiting; simp only [removeItem]; omega
  | paused => have := hdeque s.paused; simp only [removeItem]; omega
  | prioritized => have := count_removeScored_le s.prioritized i j; simp only [removeItem]; omega
  | delayed => have := count_removeScored_le s.delayed i j; simp only [removeItem]; omega
  | _ => exact le_rfl

theorem activeCount_removeItem (s : InMemoryStore D R P) (col : CollectionSuffix) (i j : ℕ) :
    (s.removeItem col i).activeCount j =
      if col = .active ∧ j = i then 0 else s.activeCount j := by
  cases col with
  | active =>
    simp only [activeCount, removeItem, true_and]
    exact s.active.count_values_filter_ne i j
  | _ => simp [activeCount, removeItem]

theorem getJob_removeItem (s : InMemoryStore D R P) (col : CollectionSuffix) (i : ℕ)
    (hcol : ∀ n, col ≠ .job n) : (s.removeItem col i).getJob = s.getJob := by
  cases col with
  | job n => exact absurd rfl (hcol n)
  | _ => rfl

/-! ### Pops, pausing and promotion -/

/-- One copy of the id has moved from the shelves to the active list. -/
structure Popped (s t : InMemoryStore D R P) (i : ℕ) : Prop where
  shelved : ∀ j, t.shelved j + (if j = i then 1 else 0) = s.shelved j
  active : ∀ j, t.activeCount j = s.activeCount j + if j = i then 1 else 0
  jobs : t.jobs = s.jobs
  lastId : t.idCounter = s.idCounter
  cached : t.storedMetrics = s.storedMetrics

theorem popBackPushFront_cases {s t : InMemoryStore D R P} {i : ℕ}
    (h : s.popBackPushFront .wait .active = (some i, t)) :
    ∃ waiting, s.waiting.popBack = (some i, waiting) ∧
      t = { s with waiting, active := s.active.pushFront i } := by
  unfold popBackPushFront at h
  cases hp : s.waiting.popBack with
  | mk o waiting =>
    cases o with
    | none => simp [hp] at h
    | some value =>
      simp only [hp, Prod.mk.injEq, Option.some.injEq] at h
      obtain ⟨rfl, rfl⟩ := h
      exact ⟨waiting, rfl, rfl⟩

theorem popBackPushFront_some {s t : InMemoryStore D R P} {i : ℕ}
    (h : s.popBackPushFront .wait .active = (some i, t)) : Popped s t i := by
  obtain ⟨waiting, hp, rfl⟩ := popBackPushFront_cases h
  refine ⟨?_, ?_, rfl, rfl, rfl⟩
  · intro j
    have hc := s.waiting.count_values_popBack (x := i) (by rw [hp]) j
    rw [hp] at hc
    simp only [shelved, eq_comm (a := j)] at hc ⊢
    omega
  · intro j
    simp only [activeCount, ConcurrentDeque.values_pushFront, count_cons_ite]

theorem popBackPushFront_none {s t : InMemoryStore D R P}
    (h : s.popBackPushFront .wait .active = (none, t)) : t = s := by
  unfold popBackPushFront at h
  cases hp : s.waiting.popBack with
  | mk o waiting =>
    cases o with
    | some value => simp [hp] at h
    | none =>
      simp only [hp, Prod.mk.injEq, true_and] at h
      unfold ConcurrentDeque.popBack at hp
      cases hb : s.waiting.data.back? with
      | some e => simp [hb] at hp
      | none =>
        simp only [hb, Prod.mk.injEq, true_and] at hp
        rw [← h, ← hp]

theorem popScored_cons {m m' : OrderedMap ℕ ℕ} {i score : ℕ} {rest : List (ℕ × ℕ)} {min : Bool}
    (h : popScored m min = ((i, score) :: rest, m')) (j : ℕ) :
    m'.values.count j + (if j = i then 1 else 0) = m.values.count j := by
  unfold popScored at h
  cases min with
  | true =>
    cases he : m.front? with
    | none => simp [he] at h
    | some e =>
      simp only [if_true, he, Prod.mk.injEq, List.cons.injEq] at h
      obtain ⟨⟨⟨rfl, -⟩, -⟩, rfl⟩ := h
      have ht := m.remove_entries_front he
      have hc : m.entries = e :: m.entries.tail := by
        unfold OrderedMap.front? at he
        cases hm : m.entries with
        | nil => simp [hm] at he
        | cons a as =>
          obtain rfl : a = e := by simpa [hm] using he
          rfl
      unfold OrderedMap.values
      rw [ht]
      conv_rhs => rw [hc, List.map_cons, count_cons_ite]
  | false =>
    cases he : m.back? with
    | none => simp [he] at h
    | some e =>
      simp only [Bool.false_eq_true, if_false, he, Prod.mk.injEq, List.cons.injEq] at h
      obtain ⟨⟨⟨rfl, -⟩, -⟩, rfl⟩ := h
      have ht := m.remove_entries_back he
      have hc : m.entries = m.entries.dropLast ++ [e] := by
        obtain ⟨hne, hl⟩ := List.mem_getLast?_eq_getLast he
        rw [hl, List.dropLast_append_getLast]
      unfold OrderedMap.values
      rw [ht]
      conv_rhs => rw [hc, List.map_append, List.count_append]
      simp only [List.map_cons, List.map_nil, List.count_singleton, beq_iff_eq, eq_comm (a := j)]

theorem shelved_pause (s : InMemoryStore D R P) (b : Bool) : (s.pause b).shelved = s.shelved := by
  funext j
  cases b with
  | true =>
    obtain ⟨h₁, h₂⟩ := ConcurrentDeque.drainInto_len s.waiting s.paused
    simp only [shelved, pause, if_true, h₁, h₂, List.count_nil, List.count_append]
    omega
  | false =>
    obtain ⟨h₁, h₂⟩ := ConcurrentDeque.drainInto_len s.paused s.waiting
    simp only [shelved, pause, Bool.false_eq_true, if_false, h₁, h₂, List.count_nil,
      List.count_append]
    omega

theorem agree_pause (s : InMemoryStore D R P) (b : Bool) : Agree s (s.pause b) := by
  refine ⟨s.shelved_pause b, ?_, ?_, ?_, ?_⟩ <;> cases b <;> rfl

theorem shelved_getDelayedAt (s : InMemoryStore D R P) (start stop : ℤ) (j : ℕ) :
    (s.getDelayedAt start stop).2.shelved j + (s.getDelayedAt start stop).1.1.count j +
      (s.getDelayedAt start stop).1.2.count j = s.shelved j := by
  have h₁ := s.delayed.count_values_split
    (fun e => decide (castUnsigned start ≤ e.1 ∧ e.1 < castUnsigned stop)) j
  have h₂ := (s.delayed.filter fun e =>
    !decide (castUnsigned start ≤ e.1 ∧ e.1 < castUnsigned stop)).count_values_split
    (fun e => decide (e.1 < castUnsigned (start - 1))) j
  simp only [shelved, getDelayedAt]
  omega

/-! ### Insertion -/

theorem checkOptions_spec {job : Job D R P} {opts : JobOptions} {now : Dt} {a : Admission D R P}
    (h : checkOptions job opts now = .ok a) :
    a.job.opts = opts ∧ a.job.attemptsMade = job.attemptsMade ∧ a.job.state = job.state := by
  obtain ⟨ms, -, -, -, hjob, -⟩ := checkOptions_cases h
  exact Job.addOpts_spec hjob

theorem place_spec (s : InMemoryStore D R P) (a : Admission D R P) (pc id : ℕ) (isPaused : Bool) :
    (∀ j, (s.place a pc id isPaused).2.shelved j ≤ s.shelved j + if j = id then 1 else 0) ∧
      (s.place a pc id isPaused).2.activeCount = s.activeCount ∧
      (s.place a pc id isPaused).2.getJob = s.getJob ∧
      (s.place a pc id isPaused).2.idCounter = s.idCounter ∧
      (s.place a pc id isPaused).2.storedMetrics = s.storedMetrics := by
  by_cases hd : 0 < a.delay
  · cases he : a.expected with
    | none => simp [place, hd, he]
    | some t =>
      simp only [place, if_pos hd, he]
      exact ⟨s.shelved_addItem_delayed_le id t false, rfl, rfl, rfl, rfl⟩
  · by_cases hp : 0 < a.job.opts.priority
    · simp only [place, if_neg hd, if_pos hp]
      exact ⟨s.shelved_addItem_prioritized_le id _ true, rfl, rfl, rfl, rfl⟩
    · simp only [place, if_neg hd, if_neg hp]
      cases isPaused with
      | true => exact ⟨fun j => (s.shelved_addItem_paused id j).le, rfl, rfl, rfl, rfl⟩
      | false => exact ⟨fun j => (s.shelved_addItem_wait id j).le, rfl, rfl, rfl, rfl⟩

theorem recordView_storeRecord (s : InMemoryStore D R P) (id : ℕ) (job : Job D R P) :
    (s.storeRecord id job).recordView = Function.update s.recordView id (some job.view) := by
  funext j
  simp only [recordView, getJob, storeRecord, RecordMap.get_insertConstant,
    CollectionSuffix.job.injEq]
  by_cases hj : j = id
  · subst hj
    simp
  · simp [hj, recordView, getJob]

theorem addOne_eq (s : InMemoryStore D R P) (item : NewJob D) (queueOpts : QueueOpts)
    (isPaused : Bool) (clock : Clock) :
    ∃ pc counter, s.addOne item queueOpts isPaused clock =
      InMemoryStore.insert { s with priorityCounter := counter, idCounter := s.idCounter + 1 }
        (Job.new item.1 (some item.2.2) (updateJobOpts queueOpts (item.2.1.getD {})).id
          (some (s.keyPrefix ++ ":" ++ s.name)) clock.utc)
        (updateJobOpts queueOpts (item.2.1.getD {})) pc (s.idCounter + 1) item.1 isPaused
        clock := by
  by_cases hp : 0 < (updateJobOpts queueOpts (item.2.1.getD {})).priority
  · refine ⟨s.priorityCounter + 1, s.priorityCounter + 1, ?_⟩
    simp only [addOne, if_pos hp]
    rfl
  · refine ⟨0, s.priorityCounter, ?_⟩
    simp only [addOne, if_neg hp]
    rfl

/-- The store after a job has been added: the next id has a record and at most one copy. -/
structure Enlisted (s t : InMemoryStore D R P) (job : Job D R P) : Prop where
  shelved : ∀ j, t.shelved j ≤ s.shelved j + if j = s.idCounter + 1 then 1 else 0
  active : t.activeCount = s.activeCount
  record : t.recordView = Function.update s.recordView (s.idCounter + 1) (some job.view)
  attempts : job.attemptsMade = 0
  selfId : job.id = some (s.idCounter + 1)
  lastId : t.idCounter = s.idCounter + 1
  cached : t.storedMetrics.isPaused = s.storedMetrics.isPaused

theorem addOne_spec (s : InMemoryStore D R P) (item : NewJob D) (queueOpts : QueueOpts)
    (isPaused : Bool) (clock : Clock) :
    (∃ e counter, s.addOne item queueOpts isPaused clock =
        (.error e, { s with priorityCounter := counter, idCounter := s.idCounter + 1 })) ∨
      ∃ job t, s.addOne item queueOpts isPaused clock = (.ok job, t) ∧ Enlisted s t job := by
  obtain ⟨pc, counter, heq⟩ := s.addOne_eq item queueOpts isPaused clock
  rw [heq]
  generalize updateJobOpts queueOpts (item.2.1.getD {}) = opts
  unfold InMemoryStore.insert
  cases hcheck : checkOptions (Job.new item.1 (some item.2.2) opts.id
      (some (s.keyPrefix ++ ":" ++ s.name)) clock.utc : Job D R P) opts clock.utc with
  | error e => exact Or.inl ⟨e, counter, rfl⟩
  | ok a =>
    right
    obtain ⟨-, hatt, -⟩ := checkOptions_spec hcheck
    obtain ⟨h₁, h₂, h₃, h₄, h₅⟩ := place_spec
      { s with priorityCounter := counter, idCounter := s.idCounter + 1 } a pc (s.idCounter + 1)
      isPaused
    have hcached := congrArg QueueMetrics.isPaused h₅
    refine ⟨{ a.job with
      state := (place { s with priorityCounter := counter, idCounter := s.idCounter + 1 } a pc
        (s.idCounter + 1) isPaused).1.1
      id := some (s.idCounter + 1) }, _, rfl, h₁, h₂, ?_, hatt, rfl, h₄, hcached⟩
    refine (recordView_storeRecord _ (s.idCounter + 1) _).trans ?_
    congr 1
    funext j
    simp only [recordView, h₃]
    rfl

end InMemoryStore

end Kiomq
