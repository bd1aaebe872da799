import Kiomq.Foundations.Runs
import Kiomq.Stores.Holdings

/-!
# Order of the jobs across pauses

Jobs without priority and delay enter at the front of the wait list, or of the paused
list while the store is paused, and leave at the back of the wait list. At any time one
of the two lists is empty, so pausing and resuming move the whole sequence from one to
the other, and the jobs are popped in the order in which they were added.
-/

namespace Kiomq

open Foundations

variable {D R P : Type}

/-- A store with the ids that were added to it and popped from it, in order. -/
structure OrderedRun (D R P : Type) where
  store : InMemoryStore D R P
  added : List ℕ
  popped : List ℕ

inductive StoreOp (D : Type)
  | add (items : List (InMemoryStore.NewJob D)) (queueOpts : QueueOpts) (clock : Clock)
  | pause (pause : Bool)
  | pop

/-- The job has priority `0` and delay `0` when it is added. -/
def InMemoryStore.NewJob.Plain (queueOpts : QueueOpts) (clock : Clock)
    (item : InMemoryStore.NewJob D) : Prop :=
  (item.opts queueOpts).priority = 0 ∧ (item.opts queueOpts).delay.asDiffMs clock.utc = .ok 0

instance (queueOpts : QueueOpts) (clock : Clock) (item : InMemoryStore.NewJob D) :
    Decidable (item.Plain queueOpts clock) := by
  unfold InMemoryStore.NewJob.Plain
  infer_instance

namespace InMemoryStore

theorem checkOptions_plain (job : Job D R P) {opts : JobOptions} {now : Dt}
    (h : opts.delay.asDiffMs now = .ok 0) (hts : job.ts = now) :
    ∃ a, checkOptions job opts now = .ok a ∧ a.delay = 0 ∧ a.job.opts = opts := by
  have hnext : ∃ expected, opts.delay.nextOccurranceTimestampMs now = .ok expected := by
    unfold JobDelay.asDiffMs at h
    unfold JobDelay.nextOccurranceTimestampMs
    split at h
    · obtain rfl := Except.ok.inj h
      exact ⟨none, rfl⟩
    · exact ⟨_, rfl⟩
  obtain ⟨expected, hnext⟩ := hnext
  have hjob : job.addOpts opts = .ok { job with priority := opts.priority, delay := 0, opts } :=
    Job.addOpts_eq (hts ▸ h)
  refine ⟨⟨{ job with priority := opts.priority, delay := 0, opts }, 0, expected⟩, ?_, rfl, rfl⟩
  simp [checkOptions, hnext, h, hjob, castUnsigned]

/-- Adding a plain job: it gets the next id and enters the wait or the paused list. -/
structure AddedPlain (s t : InMemoryStore D R P) (isPaused : Bool) (job : Job D R P) : Prop where
  jobId : job.id = some (s.idCounter + 1)
  lastId : t.idCounter = s.idCounter + 1
  flag : t.isPaused = s.isPaused
  waiting : t.waiting.values = (if isPaused then [] else [s.idCounter + 1]) ++ s.waiting.values
  paused : t.paused.values = (if isPaused then [s.idCounter + 1] else []) ++ s.paused.values

theorem addOne_plain (s : InMemoryStore D R P) {item : NewJob D} {queueOpts : QueueOpts}
    {clock : Clock} (h : NewJob.Plain queueOpts clock item) (isPaused : Bool) :
    ∃ job t, s.addOne item queueOpts isPaused clock = (.ok job, t) ∧
      AddedPlain s t isPaused job := by
  obtain ⟨hprio, hdelay⟩ := h
  unfold NewJob.opts at hprio hdelay
  obtain ⟨pc, counter, heq⟩ := s.addOne_eq item queueOpts isPaused clock
  obtain ⟨a, hcheck, hzero, hopts⟩ := checkOptions_plain (Job.new item.1 (some item.2.2)
    (updateJobOpts queueOpts (item.2.1.getD {})).id (some (s.keyPrefix ++ ":" ++ s.name))
    clock.utc : Job D R P) hdelay rfl
  have hp : ¬ 0 < a.job.opts.priority := by simp [hopts, hprio]
  have hd : ¬ 0 < a.delay := by simp [hzero]
  rw [heq]
  simp only [InMemoryStore.insert, hcheck, place, if_neg hd, if_neg hp]
  refine ⟨_, _, rfl, ?_⟩
  cases isPaused with
  | true => constructor <;> simp [addItem, storeRecord, publishEvent]
  | false => constructor <;> simp [addItem, storeRecord, publishEvent]

end InMemoryStore

namespace OrderedRun

def init (keyPrefix : Option String) (name : String) : OrderedRun D R P :=
  ⟨.new keyPrefix name, [], []⟩

/-- One operation; jobs are added with the current pause flag of the store. -/
def step (r : OrderedRun D R P) : StoreOp D → Option (OrderedRun D R P)
  | .add items queueOpts clock =>
    if ∀ item ∈ items, InMemoryStore.NewJob.Plain queueOpts clock item then
      match r.store.addBulk items queueOpts r.store.isPaused clock with
      | (.ok jobs, store) => some { r with store, added := r.added ++ jobs.filterMap Job.id }
      | (.error _, store) => some { r with store }
    else none
  | .pause pause => some { r with store := r.store.pause pause }
  | .pop =>
    match r.store.popBackPushFront .wait .active with
    | (some id, store) => some { r with store, popped := r.popped ++ [id] }
    | (none, store) => some { r with store }

/-- The ids popped so far are the first ones added, in increasing order, and each other id
is in exactly one of the two lists, once. -/
def InOrder (r : OrderedRun D R P) : Prop :=
  r.popped.Pairwise (· < ·) ∧ r.popped <+: r.added ∧
    ∀ id ∈ r.added,
      r.popped.count id + r.store.waiting.values.count id + r.store.paused.values.count id = 1

/-- The jobs in order of addition: the popped ones, then the stored list from its back. -/
structure Inv (r : OrderedRun D R P) : Prop where
  added : r.added = r.popped ++ (r.store.waiting.values ++ r.store.paused.values).reverse
  increasing : r.added.Pairwise (· < ·)
  issued : ∀ id ∈ r.added, id ≤ r.store.idCounter
  emptyWaiting : r.store.isPaused = true → r.store.waiting.values = []
  emptyPaused : r.store.isPaused = false → r.store.paused.values = []

theorem Inv.addOne {r : OrderedRun D R P} (h : r.Inv) {t : InMemoryStore D R P} {job : Job D R P}
    (hadd : InMemoryStore.AddedPlain r.store t r.store.isPaused job) :
    Inv { r with store := t, added := r.added ++ [r.store.idCounter + 1] } := by
  have hlist : (t.waiting.values ++ t.paused.values).reverse =
      (r.store.waiting.values ++ r.store.paused.values).reverse ++ [r.store.idCounter + 1] := by
    rw [hadd.waiting, hadd.paused]
    cases hp : r.store.isPaused with
    | true => simp [h.emptyWaiting hp]
    | false => simp [h.emptyPaused hp]
  constructor
  · rw [hlist, h.added, List.append_assoc]
  · rw [List.pairwise_append]
    refine ⟨h.increasing, List.pairwise_singleton _ _, ?_⟩
    intro id hid next hnext
    obtain rfl := List.mem_singleton.mp hnext
    exact Nat.lt_succ_of_le (h.issued id hid)
  · intro id hid
    rw [hadd.lastId]
    rcases List.mem_append.mp hid with hid | hid
    · exact Nat.le_succ_of_le (h.issued id hid)
    · exact (List.mem_singleton.mp hid).le
  · intro hp
    rw [hadd.flag] at hp
    simp [hadd.waiting, hp, h.emptyWaiting hp]
  · intro hp
    rw [hadd.flag] at hp
    simp [hadd.paused, hp, h.emptyPaused hp]

theorem Inv.addBulk {items : List (InMemoryStore.NewJob D)} {queueOpts : QueueOpts}
    {clock : Clock} (hitems : ∀ item ∈ items, InMemoryStore.NewJob.Plain queueOpts clock item)
    {r : OrderedRun D R P} (h : r.Inv) :
    ∃ jobs t, r.store.addBulk items queueOpts r.store.isPaused clock = (.ok jobs, t) ∧
      Inv { r with store := t, added := r.added ++ jobs.filterMap Job.id } := by
  induction items generalizing r with
  | nil => exact ⟨[], r.store, rfl, by simpa using h⟩
  | cons item rest ih =>
    obtain ⟨job, t, heq, hadd⟩ := r.store.addOne_plain (hitems item (by simp)) r.store.isPaused
    obtain ⟨jobs, u, hrest, hinv⟩ := ih (fun i hi => hitems i (List.mem_cons_of_mem _ hi))
      (h.addOne hadd)
    simp only [hadd.flag] at hrest
    refine ⟨job :: jobs, u, ?_, ?_⟩
    · simp only [InMemoryStore.addBulk, heq, hrest, Except.map]
    · simpa [hadd.jobId] using hinv

/-- Pausing and resuming move the whole list, since the other one is empty. -/
theorem Inv.pause {r : OrderedRun D R P} (h : r.Inv) (b : Bool) :
    Inv { r with store := r.store.pause b } := by
  cases b with
  | true =>
    obtain ⟨hsrc, hdst⟩ := ConcurrentDeque.drainInto_len r.store.waiting r.store.paused
    have hlist : r.store.paused.values ++ r.store.waiting.values =
        r.store.waiting.values ++ r.store.paused.values := by
      cases hp : r.store.isPaused with
      | true => simp [h.emptyWaiting hp]
      | false => simp [h.emptyPaused hp]
    constructor
    · simpa [InMemoryStore.pause, hsrc, hdst, ← hlist] using h.added
    · exact h.increasing
    · exact h.issued
    · exact fun _ => hsrc
    · simp [InMemoryStore.pause]
  | false =>
    obtain ⟨hsrc, hdst⟩ := ConcurrentDeque.drainInto_len r.store.paused r.store.waiting
    constructor
    · simpa [InMemoryStore.pause, hsrc, hdst] using h.added
    · exact h.increasing
    · exact h.issued
    · simp [InMemoryStore.pause]
    · exact fun _ => hsrc

theorem Inv.pop {r t : OrderedRun D R P} (h : r.Inv) (hstep : r.step .pop = some t) : t.Inv := by
  have hfst := r.store.waiting.popBack_fst
  have hsnd := r.store.waiting.values_popBack
  simp only [step, InMemoryStore.popBackPushFront] at hstep
  cases hp : r.store.waiting.popBack with
  | mk o waiting =>
    rw [hp] at hfst hsnd
    cases o with
    | none =>
      simp only [hp, Option.some.injEq] at hstep
      subst hstep
      have hnil : r.store.waiting.values = [] := List.getLast?_eq_none_iff.mp hfst.symm
      have hwaiting : waiting.values = r.store.waiting.values := by simpa [hnil] using hsnd
      exact ⟨hwaiting ▸ h.added, h.increasing, h.issued, hwaiting ▸ h.emptyWaiting,
        h.emptyPaused⟩
    | some id =>
      simp only [hp, Option.some.injEq] at hstep
      subst hstep
      have hsplit : r.store.waiting.values = waiting.values ++ [id] := by
        obtain ⟨hne, hl⟩ := List.mem_getLast?_eq_getLast hfst.symm
        rw [hl, hsnd, List.dropLast_append_getLast]
      have hp : r.store.isPaused = false := by
        by_contra hp
        simp [h.emptyWaiting (by simpa using hp)] at hsplit
      have hpaused := h.emptyPaused hp
      constructor
      · simpa [hsplit, hpaused] using h.added
      · exact h.increasing
      · exact h.issued
      · intro hp'
        simp [hp] at hp'
      · exact h.emptyPaused

theorem step_inv (r : OrderedRun D R P) (op : StoreOp D) (t : OrderedRun D R P) (h : r.Inv)
    (hstep : r.step op = some t) : t.Inv := by
  cases op with
  | add items queueOpts clock =>
    simp only [step] at hstep
    split_ifs at hstep with hitems
    obtain ⟨jobs, store, heq, hinv⟩ := h.addBulk hitems
    simp only [heq, Option.some.injEq] at hstep
    exact hstep ▸ hinv
  | pause b =>
    obtain rfl := Option.some.inj hstep
    exact h.pause b
  | pop => exact h.pop hstep

theorem Inv.inOrder {r : OrderedRun D R P} (h : r.Inv) : r.InOrder := by
  have hprefix : r.popped <+: r.added := ⟨_, h.added.symm⟩
  refine ⟨h.increasing.sublist hprefix.sublist, hprefix, ?_⟩
  intro id hid
  have hnodup : r.added.Nodup := h.increasing.imp ne_of_lt
  have hcount := List.count_eq_one_of_mem hnodup hid
  rw [h.added, List.count_append, List.count_reverse, List.count_append] at hcount
  omega

theorem init_inv (keyPrefix : Option String) (name : String) :
    (init keyPrefix name : OrderedRun D R P).Inv := by
  constructor <;> simp [init, InMemoryStore.new, ConcurrentDeque.new, ConcurrentDeque.values,
    OrderedMap.values]

/-- Jobs without priority and delay leave a store in the order in which they were added,
whatever pauses and resumptions happen in between. -/
theorem inOrder_across_pause (keyPrefix : Option String) (name : String)
    (ops : List (StoreOp D)) :
    Always step InOrder (init keyPrefix name : OrderedRun D R P) ops :=
  always_of_invariant_all step_inv (fun _ h => h.inOrder) (init_inv keyPrefix name) ops

end OrderedRun

end Kiomq
