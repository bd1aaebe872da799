import Kiomq.Foundations.Runs
import Kiomq.Redis.Insertion

/-!
# The counters of the Redis store

`add` advances local copies of the counters and writes them back with `INCRBY`, which
adds the whole local value to the stored one. A call that finds the value `c` and adds
`n` jobs leaves `2 * c + n`. So the counter is the number of jobs only if all jobs are
added by one call.
-/

namespace Kiomq

open Foundations Redis InMemoryStore

variable {D R P V : Type}

def prioritizedCount (queueOpts : QueueOpts) (items : List (NewJob D)) : ℕ :=
  items.countP fun item => decide (0 < (NewJob.opts queueOpts item).priority)

theorem prioritizedCount_append (queueOpts : QueueOpts) (xs ys : List (NewJob D)) :
    prioritizedCount queueOpts (xs ++ ys) =
      prioritizedCount queueOpts xs + prioritizedCount queueOpts ys := List.countP_append

theorem prioritizedCount_le (queueOpts : QueueOpts) (items : List (NewJob D)) :
    prioritizedCount queueOpts items ≤ items.length := List.countP_le_length

theorem isIncr_prepareForInsert {T : CaseTable} {pairs : Job D R P → List (String × V)}
    {queueName : String} {eventMode : QueueEventMode} {isPaused : Bool} {id priorCounter : ℕ}
    {opts : JobOptions} {job : Job D R P} {name : String} {now : Dt} {p : Prepared D R P V}
    (h : prepareForInsert T pairs queueName eventMode isPaused id priorCounter opts job name now =
      .ok p) : ∀ c ∈ p.commands, c.isIncr = false := by
  intro c hc
  rcases mem_commands_cases h hc with ⟨_, rfl⟩ | ⟨_, rfl⟩ | rfl | rfl | ⟨_, rfl⟩
  · rfl
  · rfl
  · rfl
  · rfl
  · cases eventMode <;> rfl

namespace RedisStore

/-- What the loop adds to its local variables. -/
structure Looped (queueOpts : QueueOpts) (items : List (NewJob D)) (l m : AddLoop D R P V) :
    Prop where
  idCounter : m.idCounter = l.idCounter + items.length
  pcCounter : m.pcCounter = l.pcCounter + prioritizedCount queueOpts items
  toPriorize : m.toPriorize = (l.toPriorize || decide (0 < prioritizedCount queueOpts items))
  pipeline : (∀ c ∈ l.pipeline, c.isIncr = false) → ∀ c ∈ m.pipeline, c.isIncr = false
  ids : m.jobs.map Job.id = l.jobs.map Job.id ++ (List.range' l.idCounter items.length).map some

variable {T : CaseTable} {pairs : Job D R P → List (String × V)} {st : RedisStore}
  {queueOpts : QueueOpts} {call : AddCall D}

theorem addItem_spec {l m : AddLoop D R P V} {item : NewJob D}
    (h : addItem T pairs st queueOpts call l item = .ok m) : Looped queueOpts [item] l m := by
  unfold addItem at h
  simp only at h
  split at h
  · simp at h
  · next p hp =>
    obtain rfl := Except.ok.inj h
    constructor
    · rfl
    · simp only [prioritizedCount, List.countP_cons, List.countP_nil, decide_eq_true_eq]
      split_ifs <;> omega
    · simp only [prioritizedCount, List.countP_cons, List.countP_nil, decide_eq_true_eq]
      split_ifs with hprio <;> simp [hprio]
    · intro hl c hc
      rcases List.mem_append.mp hc with hc | hc
      · exact hl c hc
      · exact isIncr_prepareForInsert hp c hc
    · simp

theorem Looped.trans {xs ys : List (NewJob D)} {l m n : AddLoop D R P V}
    (h : Looped queueOpts xs l m) (h' : Looped queueOpts ys m n) :
    Looped queueOpts (xs ++ ys) l n where
  idCounter := by
    rw [h'.idCounter, h.idCounter, List.length_append]
    omega
  pcCounter := by
    rw [h'.pcCounter, h.pcCounter, prioritizedCount_append]
    omega
  toPriorize := by
    rw [h'.toPriorize, h.toPriorize, Bool.or_assoc]
    congr 1
    rw [prioritizedCount_append, ← Bool.decide_or]
    exact decide_eq_decide.mpr (by omega)
  pipeline hl := h'.pipeline (h.pipeline hl)
  ids := by
    rw [h'.ids, h.ids, h.idCounter, List.append_assoc, ← List.map_append, List.length_append,
      List.range'_append_1]

theorem addLoop_spec {items : List (NewJob D)} {l m : AddLoop D R P V}
    (h : addLoop T pairs st queueOpts call items l = .ok m) : Looped queueOpts items l m := by
  induction items generalizing l with
  | nil =>
    obtain rfl := Except.ok.inj h
    exact ⟨rfl, rfl, by simp [prioritizedCount], id, by simp⟩
  | cons item items ih =>
    simp only [addLoop] at h
    split at h
    · simp at h
    · next k hk => exact (addItem_spec hk).trans (ih h)

theorem idKey_ne_pcKey (T : CaseTable) (st : RedisStore) : st.idKey T ≠ st.pcKey T := by
  unfold idKey pcKey
  rw [CollectionSuffix.toCollectionName_eq, CollectionSuffix.toCollectionName_eq]
  exact T.toLowercase_append_ne (c := 'd') (d := 'r') (by decide) (by decide) (by decide)
    (by decide) (by decide)

theorem get_finalPipeline (r : Server V (QueueStreamEvent R P)) {l : AddLoop D R P V}
    (h : st.addJobs T pairs queueOpts r call = .ok l) :
    ((r.execAll (st.finalPipeline T l)).get (st.idKey T)).getD 0 =
        2 * (r.get (st.idKey T)).getD 0 + call.items.length ∧
      ((r.execAll (st.finalPipeline T l)).get (st.pcKey T)).getD 0 =
        if 0 < prioritizedCount queueOpts call.items then
          2 * (r.get (st.pcKey T)).getD 0 + prioritizedCount queueOpts call.items
        else (r.get (st.pcKey T)).getD 0 := by
  have hl := addLoop_spec h
  have hne := idKey_ne_pcKey T st
  have hpipe := fun key => r.get_execAll_of_not_incr l.pipeline (hl.pipeline (by simp)) key
  have hid : l.idCounter - 1 = (r.get (st.idKey T)).getD 0 + call.items.length := by
    have := hl.idCounter
    simp only at this
    omega
  have hpc : l.pcCounter - 1 =
      (r.get (st.pcKey T)).getD 0 + prioritizedCount queueOpts call.items := by
    have := hl.pcCounter
    simp only at this
    omega
  have hflag : l.toPriorize = decide (0 < prioritizedCount queueOpts call.items) := by
    simpa using hl.toPriorize
  rw [finalPipeline, Server.execAll_append, hid, hpc, hflag]
  generalize r.execAll l.pipeline = r' at hpipe ⊢
  by_cases hprio : 0 < prioritizedCount queueOpts call.items
  · simp only [hprio, decide_true, if_true, Server.execAll, List.foldl_cons, List.foldl_nil,
      Server.get_exec_incr, if_neg hne, if_neg hne.symm, Option.getD_some, hpipe]
    omega
  · simp only [hprio, decide_false, Bool.false_eq_true, if_false, Server.execAll, List.foldl_cons,
      List.foldl_nil, Server.get_exec_incr, if_neg hne.symm, if_true, Option.getD_some, hpipe]
    exact ⟨by omega, trivial⟩

/-! ### Runs of one client -/

/-- The server with the ids given out so far and the number of prioritized jobs. -/
structure Allocation (V R P : Type) where
  server : Server V (QueueStreamEvent R P)
  ids : List ℕ
  prioritized : ℕ

/-- A call of `add`. One that panics adds no job. -/
def addStep (T : CaseTable) (pairs : Job D R P → List (String × V)) (st : RedisStore)
    (queueOpts : QueueOpts) (σ : Allocation V R P) (call : AddCall D) :
    Option (Allocation V R P) :=
  match st.addJobs T pairs queueOpts σ.server call with
  | .error _ => some σ
  | .ok l =>
    some
      { server := (st.add T pairs queueOpts σ.server call).2
        ids := σ.ids ++ l.jobs.filterMap Job.id
        prioritized := σ.prioritized + prioritizedCount queueOpts call.items }

/-- The ids are `1, 2, ...` and both counters tell the number of jobs. -/
def Counted (T : CaseTable) (st : RedisStore) (σ : Allocation V R P) : Prop :=
  σ.ids = List.range' 1 σ.ids.length ∧ (σ.server.get (st.idKey T)).getD 0 = σ.ids.length ∧
    (σ.server.get (st.pcKey T)).getD 0 = σ.prioritized

/-- A call that can be carried out is made before any job has been added. -/
def FirstJobs (queueOpts : QueueOpts) (σ : Allocation V R P) (call : AddCall D) : Prop :=
  call.computable queueOpts = true → σ.ids = []

instance (queueOpts : QueueOpts) (σ : Allocation V R P) (call : AddCall D) :
    Decidable (FirstJobs queueOpts σ call) := by
  unfold FirstJobs
  infer_instance

theorem addStep_spec {σ τ : Allocation V R P} (h : addStep T pairs st queueOpts σ call = some τ) :
    (call.computable queueOpts = false ∧ τ = σ) ∨
      (call.computable queueOpts = true ∧
        τ.ids = σ.ids ++
          List.range' ((σ.server.get (st.idKey T)).getD 0 + 1) call.items.length ∧
        τ.prioritized = σ.prioritized + prioritizedCount queueOpts call.items ∧
        (τ.server.get (st.idKey T)).getD 0 =
          2 * (σ.server.get (st.idKey T)).getD 0 + call.items.length ∧
        (τ.server.get (st.pcKey T)).getD 0 =
          if 0 < prioritizedCount queueOpts call.items then
            2 * (σ.server.get (st.pcKey T)).getD 0 + prioritizedCount queueOpts call.items
          else (σ.server.get (st.pcKey T)).getD 0) := by
  rw [← isOk_addJobs T pairs st queueOpts σ.server call]
  unfold addStep at h
  cases hloop : st.addJobs T pairs queueOpts σ.server call with
  | error e =>
    simp only [hloop, Option.some.injEq] at h
    exact Or.inl ⟨rfl, h.symm⟩
  | ok l =>
    simp only [hloop, Option.some.injEq] at h
    subst h
    have hserver : (st.add T pairs queueOpts σ.server call).2 =
        σ.server.execAll (st.finalPipeline T l) := by simp only [add, hloop]
    obtain ⟨hid, hpc⟩ := get_finalPipeline σ.server hloop
    refine Or.inr ⟨rfl, ?_, rfl, hserver ▸ hid, hserver ▸ hpc⟩
    have hids := (addLoop_spec hloop).ids
    simp only [List.map_nil, List.nil_append] at hids
    have hfilter : l.jobs.filterMap Job.id = (l.jobs.map Job.id).filterMap id := by
      simp [List.filterMap_map]
    rw [hfilter, hids]
    simp [List.filterMap_map]

/-- One client, any calls of `add`, from a server without the two counters: the counters
are right after every call just if all jobs are added by one call. -/
theorem counted_iff_firstJobs (T : CaseTable) (pairs : Job D R P → List (String × V))
    (st : RedisStore) (queueOpts : QueueOpts) (r : Server V (QueueStreamEvent R P))
    (hid : r.get (st.idKey T) = none) (hpc : r.get (st.pcKey T) = none)
    (calls : List (AddCall D)) :
    Always (addStep T pairs st queueOpts) (Counted T st) ⟨r, [], 0⟩ calls ↔
      Guarded (addStep T pairs st queueOpts) (FirstJobs queueOpts) ⟨r, [], 0⟩ calls := by
  apply always_iff_guarded
    (I := fun σ => Counted T st σ ∧ σ.prioritized ≤ σ.ids.length)
    (J := fun σ => σ.ids.length ≤ (σ.server.get (st.idKey T)).getD 0)
  · intro σ call τ h hstep
    rcases addStep_spec hstep with ⟨-, rfl⟩ | ⟨-, hids, -, hcounter, -⟩
    · exact h
    · simp only [hids, hcounter, List.length_append, List.length_range']
      omega
  · rintro σ call τ ⟨⟨hrange, hcount, hprio⟩, hle⟩ hguard hstep
    rcases addStep_spec hstep with ⟨-, rfl⟩ | ⟨hok, hids, hprios, hcounter, hpcounter⟩
    · exact ⟨⟨hrange, hcount, hprio⟩, hle⟩
    · have hnil : σ.ids = [] := hguard hok
      have hitems := prioritizedCount_le queueOpts call.items
      rw [hnil, List.length_nil] at hle hcount
      rw [hcount, hnil] at hids
      refine ⟨⟨?_, ?_, ?_⟩, ?_⟩
      · simp [hids]
      · rw [hcounter, hcount, hids]
        simp
      · rw [hpcounter, hprio, hprios]
        split_ifs <;> omega
      · rw [hprios, hids]
        simp only [List.nil_append, List.length_range']
        omega
  · exact fun σ h => h.1
  · intro σ call hJ hguard
    simp only [FirstJobs, Classical.not_imp] at hguard
    obtain ⟨hok, hne⟩ := hguard
    obtain ⟨τ, hτ⟩ : ∃ τ, addStep T pairs st queueOpts σ call = some τ := by
      unfold addStep
      split <;> exact ⟨_, rfl⟩
    refine ⟨τ, hτ, fun hcounted => ?_⟩
    have hpos := List.length_pos_iff.mpr hne
    rcases addStep_spec hτ with ⟨hnot, -⟩ | ⟨-, hids, -, hcounter, -⟩
    · rw [hok] at hnot
      simp at hnot
    · have hcount := hcounted.2.1
      rw [hcounter, hids, List.length_append, List.length_range'] at hcount
      omega
  · simp [Counted, hid, hpc]
  · simp

/-- A store for the runs below; the codec keeps the name of a job. -/
def mailStore : RedisStore := .new none "mail"

def namePairs (job : Job ℕ Unit Unit) : List (String × String) := [("name", job.name)]

def oneBatch : List (AddCall ℕ) :=
  [⟨[], .pubSub, false, true, 0⟩,
    ⟨[("a", none, 1), ("b", some { priority := 5 }, 2), ("c", none, 3)], .pubSub, false, true, 0⟩]

theorem oneBatch_counted :
    Guarded (addStep .ascii namePairs mailStore {}) (FirstJobs {})
        ⟨Server.empty, [], 0⟩ oneBatch ∧
      Always (addStep .ascii namePairs mailStore {}) (Counted .ascii mailStore)
        ⟨Server.empty, [], 0⟩ oneBatch :=
  ⟨by decide +kernel, (counted_iff_firstJobs .ascii namePairs mailStore {} Server.empty rfl rfl
    oneBatch).mpr (by decide +kernel)⟩

def threeCalls : List (AddCall ℕ) :=
  List.replicate 3 ⟨[("a", some { priority := 5 }, 1)], .pubSub, false, true, 0⟩

/-- The ids are 1, 2 and 4, and both counters end at 7. -/
theorem threeCalls_miscounted :
    (run (addStep .ascii namePairs mailStore {}) ⟨Server.empty, [], 0⟩ threeCalls).map
        (fun σ => (σ.ids, σ.server.get (mailStore.idKey .ascii),
          σ.server.get (mailStore.pcKey .ascii))) = some ([1, 2, 4], some 7, some 7) ∧
      ¬ Always (addStep .ascii namePairs mailStore {}) (Counted .ascii mailStore)
        ⟨Server.empty, [], 0⟩ threeCalls := by
  refine ⟨by decide +kernel, not_always_of_run
    (fun σ => decide (σ.ids ≠ List.range' 1 σ.ids.length)) (fun σ hσ hcounted => ?_)
    (by decide +kernel)⟩
  exact of_decide_eq_true hσ hcounted.1

end RedisStore

end Kiomq
