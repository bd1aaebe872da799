import Kiomq.Foundations.Runs
import Kiomq.Queue.Placement

/-!
# Who is in a collection of the store

The completed, failed, delayed and prioritized collections are maps from a score to an id,
so that an addition under a score that is taken replaces the id stored there. Along every
sequence of additions no member is lost just if no addition takes away the last entry of
another id. A new job is put in one of four collections; one with a negative delay is put
in none of them.
-/

namespace Kiomq

open Foundations

variable {D R P : Type}

/-! ### Additions to a scored collection -/

/-- The collections that are maps from scores to ids. -/
inductive Scored
  | completed
  | failed
  | delayed
  | prioritized
  deriving DecidableEq, Repr

def Scored.suffix : Scored → CollectionSuffix
  | completed => .completed
  | failed => .failed
  | delayed => .delayed
  | prioritized => .prioritized

/-- The arguments of one call of `add_item` for a scored collection. -/
structure Addition where
  id : ℕ
  score : ℤ
  append : Bool
  deriving DecidableEq, Repr

namespace InMemoryStore

def scores (s : InMemoryStore D R P) : Scored → OrderedMap ℕ ℕ
  | .completed => s.completed
  | .failed => s.failed
  | .delayed => s.delayed
  | .prioritized => s.prioritized

theorem scores_addItem (s : InMemoryStore D R P) (col : Scored) (id : ℕ) (score : ℤ)
    (append : Bool) :
    (s.addItem col.suffix id (some score) append).scores col =
      (s.scores col).insert (castUnsigned score) id := by
  cases col <;> rfl

end InMemoryStore

/-- A store with the ids that have been in one of its collections. -/
structure AdditionRun (D R P : Type) where
  store : InMemoryStore D R P
  ever : List ℕ

namespace AdditionRun

def start (store : InMemoryStore D R P) (col : Scored) : AdditionRun D R P :=
  ⟨store, (store.scores col).values⟩

def add (col : Scored) (w : AdditionRun D R P) (a : Addition) : AdditionRun D R P :=
  ⟨w.store.addItem col.suffix a.id (some a.score) a.append, a.id :: w.ever⟩

def step (col : Scored) (w : AdditionRun D R P) (a : Addition) : Option (AdditionRun D R P) :=
  some (w.add col a)

/-- No id has disappeared. -/
def Complete (col : Scored) (w : AdditionRun D R P) : Prop :=
  ∀ j ∈ w.ever, j ∈ (w.store.scores col).values

/-- The score is free, or the id that has it is the added one or has another score too. -/
def Spares (col : Scored) (w : AdditionRun D R P) (a : Addition) : Prop :=
  ∀ j, (w.store.scores col).get? (castUnsigned a.score) = some j →
    j = a.id ∨ ∃ k, k ≠ castUnsigned a.score ∧ (w.store.scores col).get? k = some j

/-- The members are among the ids that have been in the collection. -/
def Recorded (col : Scored) (w : AdditionRun D R P) : Prop :=
  ∀ j ∈ (w.store.scores col).values, j ∈ w.ever

theorem mem_add (col : Scored) (w : AdditionRun D R P) (a : Addition) (j : ℕ) :
    j ∈ ((w.add col a).store.scores col).values ↔
      j = a.id ∨ ∃ k, k ≠ castUnsigned a.score ∧ (w.store.scores col).get? k = some j := by
  unfold add
  rw [InMemoryStore.scores_addItem]
  exact OrderedMap.mem_values_insert_iff _ _ _ j

theorem Recorded.add {col : Scored} {w : AdditionRun D R P} (h : Recorded col w) (a : Addition) :
    Recorded col (w.add col a) := by
  intro j hj
  rcases (w.mem_add col a j).mp hj with rfl | ⟨k, -, hk⟩
  · exact List.mem_cons_self
  · exact List.mem_cons_of_mem _ (h j ((OrderedMap.mem_values_iff _ j).mpr ⟨k, hk⟩))

theorem Complete.add {col : Scored} {w : AdditionRun D R P} (h : Complete col w) {a : Addition}
    (hspares : Spares col w a) : Complete col (w.add col a) := by
  intro j hj
  apply (w.mem_add col a j).mpr
  rcases List.mem_cons.mp hj with rfl | hj
  · exact Or.inl rfl
  · obtain ⟨k, hk⟩ := (OrderedMap.mem_values_iff _ j).mp (h j hj)
    by_cases hkey : k = castUnsigned a.score
    · subst hkey
      exact hspares j hk
    · exact Or.inr ⟨k, hkey, hk⟩

theorem spares_of_complete_add {col : Scored} {w : AdditionRun D R P} (h : Recorded col w)
    {a : Addition} (hcomplete : Complete col (w.add col a)) : Spares col w a := by
  intro j hj
  have hmem : j ∈ (w.store.scores col).values := (OrderedMap.mem_values_iff _ j).mpr ⟨_, hj⟩
  exact (w.mem_add col a j).mp (hcomplete j (List.mem_cons_of_mem _ (h j hmem)))

/-- Whatever is added to a scored collection, every id that has been in it is still there
just if each addition spares the id whose score it takes. -/
theorem complete_iff_spares (store : InMemoryStore D R P) (col : Scored) (as : List Addition) :
    Always (step col) (Complete col) (start store col) as ↔
      Guarded (step col) (Spares col) (start store col) as := by
  have hrecorded : Recorded col (start store col) := fun j hj => hj
  have hcomplete : Complete col (start store col) := fun j hj => hj
  apply always_iff_guarded (I := fun w => Complete col w) (J := fun w => Recorded col w)
  · intro w a t h ht
    obtain rfl := Option.some.inj ht
    exact h.add a
  · intro w a t h hspares ht
    obtain rfl := Option.some.inj ht
    exact h.add hspares
  · exact fun w h => h
  · intro w a h hnot
    exact ⟨w.add col a, rfl, fun hall => hnot (spares_of_complete_add h hall)⟩
  · exact hcomplete
  · exact hrecorded

end AdditionRun

/-! ### Equal scores -/

def twoJobs (first second : ℤ) : Queue Unit Unit Unit :=
  ((Queue.new (.new none "mail") none 1).bulkAdd
    [("first", some { delay := .timeMilis first }, ()),
      ("second", some { delay := .timeMilis second }, ())] ⟨0, 0⟩).2

def Queue.completeAt (q : Queue Unit Unit Unit) (ts : ℤ) (id : ℕ) : Queue Unit Unit Unit :=
  (q.moveJobToFinishedOrFailed id ts ⟨0, 0, 0⟩ .completed (.success () {}) none ⟨ts, 0⟩).2

/-- The second of two additions under one score replaces the first. This happens to two jobs
of a batch with the same delay, to two jobs that finish at the same microsecond, and to two
jobs that miss their deadlines before the same promotion. -/
theorem equalScores_lose_member :
    ¬ Always (AdditionRun.step .delayed) (AdditionRun.Complete .delayed)
        (AdditionRun.start (.new none "mail" : InMemoryStore Unit Unit Unit) .delayed)
        [⟨1, 100, false⟩, ⟨2, 100, false⟩] ∧
      (twoJobs 100 100).store.delayed.values = [2] ∧
      (((twoJobs 0 0).completeAt 5 1).completeAt 5 2).store.completed.values = [2] ∧
      ((twoJobs 100 200).promoteJobs .new 1000000 50 ⟨1000000, 1000⟩).2.1.store.failed.values =
        [2] := by
  refine ⟨?_, by decide +kernel, by decide +kernel, by decide +kernel⟩
  apply not_always_of_run fun w => decide (1 ∈ w.ever ∧ 1 ∉ (w.store.scores .delayed).values)
  · intro w hlost hall
    have hlost := of_decide_eq_true hlost
    exact hlost.2 (hall 1 hlost.1)
  · decide +kernel

/-! ### Where a new job is put -/

namespace InMemoryStore

/-- The id is in exactly one of the collections of jobs to be fetched, it has a record, and
it is delayed only if its delay is positive. -/
structure Placed (t : InMemoryStore D R P) (id : ℕ) (ms : ℤ) : Prop where
  once : ∃! p : Place, p.isShelf = true ∧ id ∈ t.filed p
  record : t.jobExists id = true
  delayed : id ∈ t.filed .delayed → 0 < ms

theorem not_mem_filed {s : InMemoryStore D R P} {id : ℕ} (hnew : s.shelved id = 0) {p : Place}
    (hp : p.isShelf = true) : id ∉ s.filed p :=
  fun hmem => (s.exists_shelf_iff id).mp ⟨p, hp, hmem⟩ hnew

theorem mem_filed_addItem (s : InMemoryStore D R P) {place : Place} (hshelf : place.isShelf = true)
    (id : ℕ) {score : Option ℤ} (hscore : place = .prioritized ∨ place = .delayed → score.isSome)
    (append : Bool) : id ∈ (s.addItem place.suffix id score append).filed place := by
  have hpush : ∀ d : ConcurrentDeque ℕ,
      id ∈ (if append then d.pushFront id else d.pushBack id).values := by
    intro d
    cases append <;> simp
  have hinsert : score.isSome → ∀ m : OrderedMap ℕ ℕ,
      id ∈ (score.elim m fun x => m.insert (castUnsigned x) id).values := by
    intro hsome m
    obtain ⟨x, rfl⟩ := Option.isSome_iff_exists.mp hsome
    exact (m.mem_values_insert_iff _ _ _).mpr (Or.inl rfl)
  cases place with
  | waiting => exact hpush _
  | paused => exact hpush _
  | prioritized => exact hinsert (hscore (Or.inl rfl)) _
  | delayed => exact hinsert (hscore (Or.inr rfl)) _
  | active | completed | failed => simp [Place.isShelf] at hshelf

theorem existsUnique_addItem {s : InMemoryStore D R P} {id : ℕ} (hnew : s.shelved id = 0)
    {place : Place} (hshelf : place.isShelf = true) {score : Option ℤ}
    (hscore : place = .prioritized ∨ place = .delayed → score.isSome) (append : Bool) :
    ∃! p : Place, p.isShelf = true ∧ id ∈ (s.addItem place.suffix id score append).filed p := by
  refine ⟨place, ⟨hshelf, s.mem_filed_addItem hshelf id hscore append⟩, ?_⟩
  rintro p ⟨hp, hmem⟩
  rcases s.filed_addItem place id score append p id hmem with hold | ⟨-, hplace⟩
  · exact absurd hold (not_mem_filed hnew hp)
  · exact hplace

theorem checkOptions_timeMilis {job : Job D R P} {opts : JobOptions} {ms : ℤ} {now : Dt}
    {a : Admission D R P} (hdelay : opts.delay = .timeMilis ms)
    (h : checkOptions job opts now = .ok a) :
    (JobDelay.timeMilis ms).nextOccurranceTimestampMs now = .ok a.expected ∧
      a.delay = castUnsigned ms := by
  obtain ⟨ms', hexpected, hms, hcast, -, -⟩ := checkOptions_cases h
  rw [hdelay] at hexpected hms
  obtain rfl : ms = ms' := Except.ok.inj hms
  exact ⟨hexpected, hcast⟩

/-- A negative delay passes the checks: as a `u64` it is a very long one. -/
theorem checkOptions_of_neg {opts : JobOptions} {ms : ℤ} (hdelay : opts.delay = .timeMilis ms)
    (hneg : ms < 0) (hms : -2 ^ 63 ≤ ms) (job : Job D R P) (now : Dt) :
    ∃ a, checkOptions job opts now = .ok a := by
  have hcast := castUnsigned_of_neg hneg hms
  have hlong : ¬ (0 < castUnsigned ms ∧ castUnsigned ms < minDelayMsLimit) := by
    unfold minDelayMsLimit
    omega
  simp only [checkOptions, hdelay, JobDelay.nextOccurranceTimestampMs, if_pos hneg.le,
    JobDelay.asDiffMs, Job.addOpts, Except.map, if_neg hlong]
  exact ⟨_, rfl⟩

/-- Nothing is added for a negative delay. -/
theorem place_of_neg {s : InMemoryStore D R P} {a : Admission D R P} {job : Job D R P}
    {opts : JobOptions} {ms : ℤ} {now : Dt} (hdelay : opts.delay = .timeMilis ms) (hneg : ms < 0)
    (hms : -2 ^ 63 ≤ ms) (hcheck : checkOptions job opts now = .ok a) (pc id : ℕ)
    (isPaused : Bool) : (s.place a pc id isPaused).2 = s := by
  obtain ⟨hexpected, hcast⟩ := checkOptions_timeMilis hdelay hcheck
  have hnone : a.expected = none := by
    simpa [JobDelay.nextOccurranceTimestampMs, hneg.le, eq_comm] using hexpected
  have hpos : 0 < a.delay := by
    rw [hcast, castUnsigned_of_neg hneg hms]
    omega
  simp only [place, if_pos hpos, hnone]

theorem place_of_nonneg {s : InMemoryStore D R P} {a : Admission D R P} {job : Job D R P}
    {opts : JobOptions} {ms : ℤ} {now : Dt} (hdelay : opts.delay = .timeMilis ms) (hpos : 0 ≤ ms)
    (hms : ms < 2 ^ 63) (hcheck : checkOptions job opts now = .ok a) (pc id : ℕ)
    (isPaused : Bool) :
    ∃ (place : Place) (score : Option ℤ) (append : Bool),
      (s.place a pc id isPaused).2 = s.addItem place.suffix id score append ∧
        place.isShelf = true ∧ (place = .prioritized ∨ place = .delayed → score.isSome) ∧
        (place = .delayed → 0 < ms) := by
  obtain ⟨hexpected, hcast⟩ := checkOptions_timeMilis hdelay hcheck
  rw [castUnsigned_of_nonneg hpos hms] at hcast
  by_cases hzero : ms = 0
  · have hnow : ¬ 0 < a.delay := by omega
    by_cases hprio : 0 < a.job.opts.priority
    · simp only [place, if_neg hnow, if_pos hprio]
      exact ⟨.prioritized, _, _, rfl, rfl, fun _ => rfl, by simp⟩
    · simp only [place, if_neg hnow, if_neg hprio]
      cases isPaused with
      | true => exact ⟨.paused, _, _, rfl, rfl, by simp, by simp⟩
      | false => exact ⟨.waiting, _, _, rfl, rfl, by simp, by simp⟩
  · have hlater : 0 < a.delay := by omega
    have hsome : ∃ time, a.expected = some time := by
      have hgt : ¬ ms ≤ 0 := by omega
      simp only [JobDelay.nextOccurranceTimestampMs, if_neg hgt] at hexpected
      cases hadd : now.addMillis ms with
      | error e => simp [hadd, Except.map] at hexpected
      | ok next =>
        rw [hadd] at hexpected
        exact ⟨_, (Except.ok.inj hexpected).symm⟩
    obtain ⟨time, htime⟩ := hsome
    simp only [place, if_pos hlater, htime]
    exact ⟨.delayed, _, _, rfl, rfl, fun _ => rfl, fun _ => by omega⟩

theorem insert_ok {s : InMemoryStore D R P} {a : Admission D R P} {job : Job D R P}
    {opts : JobOptions} {clock : Clock} (hcheck : checkOptions job opts clock.utc = .ok a)
    (pc id : ℕ) (name : String) (isPaused : Bool) :
    (∃ stored, (s.insert job opts pc id name isPaused clock).1 = .ok stored) ∧
      (s.insert job opts pc id name isPaused clock).2.jobExists id = true ∧
      ∀ p, (s.insert job opts pc id name isPaused clock).2.filed p =
        (s.place a pc id isPaused).2.filed p := by
  simp only [InMemoryStore.insert, hcheck]
  refine ⟨⟨_, rfl⟩, ?_, fun p => by cases p <;> rfl⟩
  simp [jobExists, getJob, publishEvent, storeRecord, RecordMap.get_insertConstant]

/-- An accepted job is placed just if its delay is not negative. -/
theorem insert_placed_iff {s : InMemoryStore D R P} {id : ℕ} (hnew : s.shelved id = 0)
    {opts : JobOptions} {ms : ℤ} (hdelay : opts.delay = .timeMilis ms)
    (hms : -2 ^ 63 ≤ ms ∧ ms < 2 ^ 63) (job : Job D R P) (pc : ℕ) (name : String)
    (isPaused : Bool) (clock : Clock) :
    (∀ stored, (s.insert job opts pc id name isPaused clock).1 = .ok stored →
      (s.insert job opts pc id name isPaused clock).2.Placed id ms) ↔ 0 ≤ ms := by
  constructor
  · intro h
    by_contra hneg
    obtain ⟨a, hcheck⟩ := checkOptions_of_neg hdelay (by omega) hms.1 job clock.utc
    obtain ⟨⟨stored, hstored⟩, -, hfiled⟩ := insert_ok (s := s) hcheck pc id name isPaused
    obtain ⟨p, ⟨hp, hmem⟩, -⟩ := (h stored hstored).once
    rw [hfiled, place_of_neg hdelay (by omega) hms.1 hcheck] at hmem
    exact not_mem_filed hnew hp hmem
  · intro hpos stored hstored
    cases hcheck : checkOptions job opts clock.utc with
    | error e => simp [InMemoryStore.insert, hcheck] at hstored
    | ok a =>
      obtain ⟨-, hrecord, hfiled⟩ := insert_ok (s := s) hcheck pc id name isPaused
      obtain ⟨place, score, append, heq, hshelf, hscore, hlater⟩ :=
        place_of_nonneg (s := s) hdelay hpos hms.2 hcheck pc id isPaused
      have honce := existsUnique_addItem hnew hshelf hscore append
      constructor
      · simp only [hfiled, heq]
        exact honce
      · exact hrecord
      · intro hmem
        rw [hfiled, heq] at hmem
        apply hlater
        exact honce.unique ⟨hshelf, s.mem_filed_addItem hshelf id hscore append⟩ ⟨rfl, hmem⟩

def mail : InMemoryStore Unit Unit Unit := .new none "mail"

theorem insert_delayed_placed :
    (mail.insert (.new "a" none none none 0) { delay := .timeMilis 100 } 0 1 "a" false
      ⟨0, 0⟩).2.Placed 1 100 :=
  (insert_placed_iff (by decide +kernel) rfl (by decide) (.new "a" none none none 0) 0 "a" false
    ⟨0, 0⟩).mpr (by decide) _ rfl

/-- A job with a negative delay is accepted and gets a record, but no collection holds it. -/
theorem negativeDelay_not_placed :
    let out := mail.insert (.new "a" none none none 0) { delay := .timeMilis (-1) } 0 1 "a" false
      ⟨0, 0⟩
    out.1.isOk = true ∧ out.2.jobExists 1 = true ∧ out.2.shelved 1 = 0 ∧
      ¬ out.2.Placed 1 (-1) := by
  refine ⟨by decide +kernel, by decide +kernel, by decide +kernel, fun h => ?_⟩
  obtain ⟨p, hp, -⟩ := h.once
  exact (exists_shelf_iff _ 1).mp ⟨p, hp⟩ (by decide +kernel)

end InMemoryStore

end Kiomq
