import Kiomq.Foundations.StableQueue
import Kiomq.Stores.Membership
import Kiomq.Stores.PauseOrder

/-!
# Order of the prioritized jobs

The score of a prioritized job has its priority in the upper half and the value of a counter in
the lower one. As long as both fit into 32 bits, scores are ordered as jobs are to leave: by
priority, and with the same priority in the order in which they were added. So the prioritized
set is a stable priority queue, and `pop_set` takes its first job. For larger values the two
halves overlap, and `scores_ordered_iff` says which scores are still in order.
-/

namespace Kiomq

open Foundations

variable {D R P : Type}

/-- The key under which a prioritized job is stored. -/
def priorityRank (priority prioCounter : ℕ) : ℕ :=
  castUnsigned (castSigned (calculateNextPriorityScore priority prioCounter))

theorem priorityRank_eq {priority prioCounter : ℕ} (hpriority : priority < 2 ^ 32)
    (hcounter : prioCounter < 2 ^ 32) :
    priorityRank priority prioCounter = priority * 2 ^ 32 + prioCounter := by
  have hscore : calculateNextPriorityScore priority prioCounter =
      priority * 2 ^ 32 + prioCounter := by
    unfold calculateNextPriorityScore
    omega
  unfold priorityRank castUnsigned castSigned
  rw [hscore]
  split_ifs <;> omega

theorem priorityRank_lt {p p' n n' : ℕ} (hp : p < 2 ^ 32) (hp' : p' < 2 ^ 32) (hn : n < 2 ^ 32)
    (hn' : n' < 2 ^ 32) (h : p < p' ∨ p = p' ∧ n < n') :
    priorityRank p n < priorityRank p' n' := by
  rw [priorityRank_eq hp hn, priorityRank_eq hp' hn']
  omega

/-! ### Priorities and counters of 64 bits -/

/-- The scores of two jobs: neither the shift of a priority nor the sum leaves `u64`, and the
job that is to run first has the lower score. -/
structure ScoresOrdered (p c p' c' : ℕ) : Prop where
  fits : p * 2 ^ 32 + c % 2 ^ 48 < 2 ^ 64
  fits' : p' * 2 ^ 32 + c' % 2 ^ 48 < 2 ^ 64
  ordered : p < p' ∨ p = p' ∧ c < c' →
    calculateNextPriorityScore p c < calculateNextPriorityScore p' c'

/-- The mask leaves 48 bits of the counter above a priority that starts at bit 32. The upper 16
of them are added to the priority. -/
def counterCarry (prioCounter : ℕ) : ℕ := prioCounter % 2 ^ 48 / 2 ^ 32

/-- The counters do not disturb the priorities: what they carry into the priorities stays below
32 bits, the earlier counter does not make up for the distance of two priorities, and with the
same priority the counter does not pass a multiple of `2 ^ 48`. -/
structure CountersApart (p c p' c' : ℕ) : Prop where
  carry : p + counterCarry c < 2 ^ 32
  carry' : p' + counterCarry c' < 2 ^ 32
  distance : p < p' → c % 2 ^ 48 < (p' - p) * 2 ^ 32 + c' % 2 ^ 48
  wrap : p = p' → c < c' → c % 2 ^ 48 < c' % 2 ^ 48

theorem score_fits_iff (p c : ℕ) :
    p * 2 ^ 32 + c % 2 ^ 48 < 2 ^ 64 ↔ p + counterCarry c < 2 ^ 32 := by
  unfold counterCarry
  omega

theorem score_eq_of_fits {p c : ℕ} (h : p * 2 ^ 32 + c % 2 ^ 48 < 2 ^ 64) :
    calculateNextPriorityScore p c = p * 2 ^ 32 + c % 2 ^ 48 := by
  unfold calculateNextPriorityScore
  omega

/-- Scores are ordered as the jobs are to run just if the counters leave the priorities apart. -/
theorem scores_ordered_iff (p c p' c' : ℕ) : ScoresOrdered p c p' c' ↔ CountersApart p c p' c' := by
  constructor
  · intro h
    have hordered := h.ordered
    rw [score_eq_of_fits h.fits, score_eq_of_fits h.fits'] at hordered
    refine ⟨(score_fits_iff p c).mp h.fits, (score_fits_iff p' c').mp h.fits', ?_, ?_⟩
    · intro hlt
      have hscore := hordered (Or.inl hlt)
      omega
    · rintro rfl hlt
      have hscore := hordered (Or.inr ⟨rfl, hlt⟩)
      omega
  · intro h
    have hfits := (score_fits_iff p c).mpr h.carry
    have hfits' := (score_fits_iff p' c').mpr h.carry'
    refine ⟨hfits, hfits', ?_⟩
    rw [score_eq_of_fits hfits, score_eq_of_fits hfits']
    rintro (hlt | ⟨rfl, hlt⟩)
    · have hdistance := h.distance hlt
      clear hfits hfits'
      omega
    · have hwrap := h.wrap rfl hlt
      omega

/-- The shift drops a priority of `2 ^ 32`, which then comes before priority 1; the job that
gets the number `2 ^ 32 + 1` has the score of a later priority; and the largest priority of 32
bits overflows with that number. -/
theorem scores_out_of_order :
    calculateNextPriorityScore (2 ^ 32) 1 < calculateNextPriorityScore 1 1 ∧
      calculateNextPriorityScore 1 (2 ^ 32 + 1) = calculateNextPriorityScore 2 1 ∧
      2 ^ 64 ≤ (2 ^ 32 - 1) * 2 ^ 32 + (2 ^ 32 + 1) % 2 ^ 48 ∧
      ¬ ScoresOrdered 1 1 (2 ^ 32) 1 := by
  refine ⟨by decide, by decide, by norm_num, fun h => ?_⟩
  have hscore := h.ordered (Or.inl (by norm_num))
  revert hscore
  decide

def InMemoryStore.NewJob.Ranked (queueOpts : QueueOpts) (clock : Clock)
    (item : InMemoryStore.NewJob D) : Prop :=
  1 ≤ (item.opts queueOpts).priority ∧ (item.opts queueOpts).priority ≤ 2 ^ 32 - 1 ∧
    (item.opts queueOpts).delay.asDiffMs clock.utc = .ok 0

instance (queueOpts : QueueOpts) (clock : Clock) (item : InMemoryStore.NewJob D) :
    Decidable (item.Ranked queueOpts clock) :=
  inferInstanceAs (Decidable (_ ∧ _ ∧ _))

namespace InMemoryStore

/-- Adding a job with a priority: it gets the next id and the next number of the counter. -/
structure AddedRanked (s t : InMemoryStore D R P) (priority : ℕ) (job : Job D R P) : Prop where
  jobId : job.id = some (s.idCounter + 1)
  jobPriority : job.opts.priority = priority
  lastId : t.idCounter = s.idCounter + 1
  counter : t.priorityCounter = s.priorityCounter + 1
  prioritized : t.prioritized =
    s.prioritized.insert (priorityRank priority (s.priorityCounter + 1)) (s.idCounter + 1)

theorem addOne_eq_of_priority (s : InMemoryStore D R P) {item : NewJob D} {queueOpts : QueueOpts}
    (h : 0 < (item.opts queueOpts).priority) (isPaused : Bool) (clock : Clock) :
    s.addOne item queueOpts isPaused clock =
      InMemoryStore.insert
        { s with priorityCounter := s.priorityCounter + 1, idCounter := s.idCounter + 1 }
        (Job.new item.1 (some item.2.2) (item.opts queueOpts).id
          (some (s.keyPrefix ++ ":" ++ s.name)) clock.utc)
        (item.opts queueOpts) (s.priorityCounter + 1) (s.idCounter + 1) item.1 isPaused clock := by
  unfold NewJob.opts at h ⊢
  simp only [addOne, if_pos h]
  rfl

theorem addOne_ranked (s : InMemoryStore D R P) {item : NewJob D} {queueOpts : QueueOpts}
    {clock : Clock} (h : NewJob.Ranked queueOpts clock item) (isPaused : Bool) :
    ∃ job t, s.addOne item queueOpts isPaused clock = (.ok job, t) ∧
      AddedRanked s t (item.opts queueOpts).priority job := by
  obtain ⟨hpriority, -, hdelay⟩ := h
  obtain ⟨a, hcheck, hzero, hopts⟩ := checkOptions_plain (Job.new item.1 (some item.2.2)
    (item.opts queueOpts).id (some (s.keyPrefix ++ ":" ++ s.name)) clock.utc : Job D R P) hdelay rfl
  have hp : 0 < a.job.opts.priority := by
    rw [hopts]
    exact hpriority
  have hd : ¬ 0 < a.delay := by simp [hzero]
  rw [s.addOne_eq_of_priority hpriority]
  simp only [InMemoryStore.insert, hcheck, place, if_neg hd, if_pos hp]
  refine ⟨_, _, rfl, ?_⟩
  constructor
  · rfl
  · exact congrArg JobOptions.priority hopts
  · rfl
  · rfl
  · simp [addItem, storeRecord, publishEvent, priorityRank, hopts]

end InMemoryStore

/-! ### Runs of additions and pops -/

/-- A store, the priorities and ids of the prioritized jobs that were added and not popped, in
the order of addition, and the number of jobs that were to be added. -/
structure PriorityRun (D R P : Type) where
  store : InMemoryStore D R P
  waiting : List (ℕ × ℕ)
  total : ℕ

inductive PriorityOp (D : Type)
  | addBulk (items : List (InMemoryStore.NewJob D)) (queueOpts : QueueOpts) (isPaused : Bool)
      (clock : Clock)
  | popSet

/-- The entry is the least one by priority and order of addition. -/
def LeastIn (waiting : List (ℕ × ℕ)) (e : ℕ × ℕ) : Prop :=
  ∃ earlier later, waiting = earlier ++ e :: later ∧ (∀ f ∈ earlier, e.1 < f.1) ∧
    ∀ f ∈ later, e.1 ≤ f.1

namespace PriorityRun

def ranked (job : Job D R P) : Option (ℕ × ℕ) := job.id.map fun id => (job.opts.priority, id)

def step (r : PriorityRun D R P) : PriorityOp D → Option (PriorityRun D R P)
  | .addBulk items queueOpts isPaused clock =>
    let total := r.total + items.length
    match r.store.addBulk items queueOpts isPaused clock with
    | (.ok jobs, store) => some ⟨store, r.waiting ++ jobs.filterMap ranked, total⟩
    | (.error _, store) => some ⟨store, r.waiting, total⟩
  | .popSet =>
    let out := r.store.popSet .prioritized true
    some { r with
      store := out.2
      waiting := r.waiting.filter fun e => e.2 ∉ out.1.map Prod.fst }

/-- The jobs have priorities of 32 bits and no delay, and there are fewer than `2 ^ 32`. -/
def Proper (r : PriorityRun D R P) : PriorityOp D → Prop
  | .addBulk items queueOpts _ clock =>
    (∀ item ∈ items, InMemoryStore.NewJob.Ranked queueOpts clock item) ∧
      r.total + items.length < 2 ^ 32
  | .popSet => True

instance (r : PriorityRun D R P) : ∀ op, Decidable (r.Proper op)
  | .addBulk _ _ _ _ => inferInstanceAs (Decidable (_ ∧ _))
  | .popSet => isTrue trivial

/-- A pop returns the least job that waits, and nothing only if no job waits. -/
def PopsLeast (r : PriorityRun D R P) : Prop :=
  match (r.store.popSet .prioritized true).1 with
  | [] => r.waiting = []
  | [(id, _)] => ∃ priority, LeastIn r.waiting (priority, id)
  | _ => False

/-! ### The prioritized set as a stable queue -/

def view (e : Ticketed ℕ ℕ) : ℕ × ℕ := (e.priority, e.item)

/-- The prioritized set realizes the queue of the waiting jobs. -/
structure QueuedAs (r : PriorityRun D R P) (q : StableQueue ℕ ℕ) : Prop where
  realized : q.RealizedBy priorityRank r.store.prioritized
  waiting : r.waiting = q.entries.map view
  last : q.last = r.store.priorityCounter
  small : ∀ e ∈ q.entries, e.priority < 2 ^ 32
  ids : (q.entries.map Ticketed.item).Nodup
  issued : ∀ e ∈ q.entries, e.item ≤ r.store.idCounter

/-- Priorities and tickets of 32 bits are ordered as their scores are. -/
theorem keyed_of_small {q : StableQueue ℕ ℕ} (hsmall : ∀ e ∈ q.entries, e.priority < 2 ^ 32)
    (hlast : q.last < 2 ^ 32) : q.Keyed priorityRank := by
  intro e he f hf hbefore
  exact priorityRank_lt (hsmall e he) (hsmall f hf) ((q.issued e he).trans_lt hlast)
    ((q.issued f hf).trans_lt hlast) hbefore

theorem QueuedAs.addOne {r : PriorityRun D R P} {q : StableQueue ℕ ℕ} (h : r.QueuedAs q)
    {t : InMemoryStore D R P} {priority : ℕ} {job : Job D R P}
    (hadd : InMemoryStore.AddedRanked r.store t priority job) (hpriority : priority < 2 ^ 32)
    (hcounter : r.store.priorityCounter + 1 < 2 ^ 32) :
    QueuedAs ⟨t, r.waiting ++ [(priority, r.store.idCounter + 1)], r.total + 1⟩
      (q.push priority (r.store.idCounter + 1)) := by
  have hmem : ∀ e ∈ (q.push priority (r.store.idCounter + 1)).entries,
      e ∈ q.entries ∨ e = ⟨priority, q.last + 1, r.store.idCounter + 1⟩ := by
    intro e he
    exact (List.mem_append.mp he).imp_right List.mem_singleton.mp
  have hsmall : ∀ e ∈ (q.push priority (r.store.idCounter + 1)).entries,
      e.priority < 2 ^ 32 := by
    intro e he
    rcases hmem e he with he | rfl
    · exact h.small e he
    · exact hpriority
  have hlast : (q.push priority (r.store.idCounter + 1)).last < 2 ^ 32 := by
    change q.last + 1 < 2 ^ 32
    rwa [h.last]
  have hkeyed := keyed_of_small hsmall hlast
  constructor
  · have hpush := h.realized.push priority (r.store.idCounter + 1) hkeyed
    rw [h.last, ← hadd.prioritized] at hpush
    exact hpush
  · simp [StableQueue.push, h.waiting, view]
  · rw [hadd.counter, ← h.last]
    rfl
  · exact hsmall
  · have hfresh : r.store.idCounter + 1 ∉ q.entries.map Ticketed.item := by
      intro hin
      obtain ⟨e, he, hid⟩ := List.mem_map.mp hin
      have hissued := h.issued e he
      omega
    rw [StableQueue.push, List.map_append, List.nodup_append]
    refine ⟨h.ids, List.nodup_singleton _, ?_⟩
    rintro id hid id' hid' rfl
    obtain rfl := List.mem_singleton.mp hid'
    exact hfresh hid
  · intro e he
    rw [hadd.lastId]
    rcases hmem e he with he | rfl
    · exact Nat.le_succ_of_le (h.issued e he)
    · exact le_rfl

/-- The waiting jobs are queued, and the counter has counted the additions. -/
def Inv (r : PriorityRun D R P) : Prop :=
  (∃ q, r.QueuedAs q) ∧ r.store.priorityCounter = r.total

theorem Inv.addBulk {items : List (InMemoryStore.NewJob D)} {queueOpts : QueueOpts}
    {clock : Clock} (hitems : ∀ item ∈ items, InMemoryStore.NewJob.Ranked queueOpts clock item)
    {r : PriorityRun D R P} (h : r.Inv) (htotal : r.total + items.length < 2 ^ 32)
    (isPaused : Bool) :
    ∃ jobs t, r.store.addBulk items queueOpts isPaused clock = (.ok jobs, t) ∧
      Inv ⟨t, r.waiting ++ jobs.filterMap ranked, r.total + items.length⟩ := by
  induction items generalizing r with
  | nil => exact ⟨[], r.store, rfl, by simpa using h⟩
  | cons item rest ih =>
    have hitem := hitems item List.mem_cons_self
    obtain ⟨⟨q, hq⟩, hcounter⟩ := h
    obtain ⟨job, t, heq, hadd⟩ := r.store.addOne_ranked hitem isPaused
    rw [List.length_cons] at htotal
    have hqueued := hq.addOne hadd (by have := hitem.2.1; omega) (by omega)
    have hinv : Inv ⟨t, r.waiting ++ [((item.opts queueOpts).priority, r.store.idCounter + 1)],
        r.total + 1⟩ := ⟨⟨_, hqueued⟩, by rw [hadd.counter, hcounter]⟩
    obtain ⟨jobs, u, hrest, hinv'⟩ := ih (fun i hi => hitems i (List.mem_cons_of_mem _ hi)) hinv
      (by simp only; omega)
    have hentry : ranked job = some ((item.opts queueOpts).priority, r.store.idCounter + 1) := by
      simp [ranked, hadd.jobId, hadd.jobPriority]
    refine ⟨job :: jobs, u, ?_, ?_⟩
    · simp only [InMemoryStore.addBulk, heq, hrest, Except.map]
    · have hlength : r.total + (rest.length + 1) = r.total + 1 + rest.length := by omega
      simpa [hentry, hlength] using hinv'

theorem popSet_eq (s : InMemoryStore D R P) :
    (s.prioritized.front? = none ∧ s.popSet .prioritized true = ([], s)) ∨
      ∃ e, s.prioritized.front? = some e ∧ s.popSet .prioritized true =
        ([(e.2, e.1)], { s with prioritized := s.prioritized.remove e.1 }) := by
  cases hfront : s.prioritized.front? with
  | none =>
    left
    simp [InMemoryStore.popSet, InMemoryStore.popScored, hfront]
  | some e =>
    right
    exact ⟨e, rfl, by simp [InMemoryStore.popSet, InMemoryStore.popScored, hfront]⟩

theorem QueuedAs.remove {r : PriorityRun D R P} {q : StableQueue ℕ ℕ} (h : r.QueuedAs q)
    {e : Ticketed ℕ ℕ} (he : e ∈ q.entries) {rest : OrderedMap ℕ ℕ}
    (hrest : rest = r.store.prioritized.remove (priorityRank e.priority e.ticket)) :
    QueuedAs
      { r with
        store := { r.store with prioritized := rest }
        waiting := r.waiting.filter fun f => f.2 ∉ [e.item] }
      (q.remove e.ticket) := by
  have hsame : ∀ f ∈ q.entries, decide ((view f).2 ∉ [e.item]) = decide (f.ticket ≠ e.ticket) := by
    intro f hf
    rw [decide_eq_decide, not_iff_not, List.mem_singleton]
    constructor
    · intro hitem
      rw [List.inj_on_of_nodup_map h.ids hf he hitem]
    · intro hticket
      rw [q.ticket_unique hf he hticket]
      rfl
  constructor
  · rw [hrest]
    exact h.realized.remove he
  · rw [h.waiting, List.filter_map]
    exact congrArg (List.map view) (List.filter_congr hsame)
  · exact h.last
  · exact fun f hf => h.small f (List.mem_of_mem_filter hf)
  · exact h.ids.sublist (List.filter_sublist.map _)
  · exact fun f hf => h.issued f (List.mem_of_mem_filter hf)

theorem Inv.pop {r t : PriorityRun D R P} (h : r.Inv) (hstep : r.step .popSet = some t) :
    t.Inv := by
  obtain ⟨⟨q, hq⟩, hcounter⟩ := h
  simp only [step] at hstep
  rcases popSet_eq r.store with ⟨-, hpop⟩ | ⟨x, hfront, hpop⟩
  · rw [hpop] at hstep
    obtain rfl := Option.some.inj hstep
    exact ⟨⟨q, by simpa using hq⟩, hcounter⟩
  · obtain ⟨e, ⟨he, -⟩, rfl⟩ := hq.realized.front hfront
    rw [hpop] at hstep
    obtain rfl := Option.some.inj hstep
    exact ⟨⟨_, hq.remove he rfl⟩, hcounter⟩

theorem step_inv (r : PriorityRun D R P) (op : PriorityOp D) (t : PriorityRun D R P) (h : r.Inv)
    (hproper : r.Proper op) (hstep : r.step op = some t) : t.Inv := by
  cases op with
  | addBulk items queueOpts isPaused clock =>
    obtain ⟨jobs, store, heq, hinv⟩ := h.addBulk hproper.1 hproper.2 isPaused
    simp only [step, heq, Option.some.injEq] at hstep
    exact hstep ▸ hinv
  | popSet => exact h.pop hstep

theorem Inv.popsLeast {r : PriorityRun D R P} (h : r.Inv) : r.PopsLeast := by
  obtain ⟨⟨q, hq⟩, -⟩ := h
  unfold PopsLeast
  rcases popSet_eq r.store with ⟨hfront, hpop⟩ | ⟨x, hfront, hpop⟩
  · rw [hpop]
    simp [hq.waiting, hq.realized.entries_eq_nil hfront]
  · rw [hpop]
    obtain ⟨e, hfirst, rfl⟩ := hq.realized.front hfront
    obtain ⟨earlier, later, hsplit, hearlier, hlater⟩ := hfirst.split
    refine ⟨e.priority, earlier.map view, later.map view, ?_, ?_, ?_⟩
    · rw [hq.waiting, hsplit, List.map_append, List.map_cons]
      rfl
    · exact List.forall_mem_map.mpr hearlier
    · exact List.forall_mem_map.mpr hlater

def start (s : InMemoryStore D R P) : PriorityRun D R P := ⟨s, [], 0⟩

/-- From a store without prioritized jobs, whatever the order of additions and pops: a pop
returns the least waiting job by priority and order of addition. -/
theorem pops_least_waiting (s : InMemoryStore D R P) (hempty : s.prioritized = .empty)
    (hcounter : s.priorityCounter = 0) (ops : List (PriorityOp D))
    (hproper : Guarded step Proper (start s) ops) : Always step PopsLeast (start s) ops := by
  have hinv : (start s).Inv := by
    refine ⟨⟨.empty 0, ?_, rfl, hcounter.symm, by simp [StableQueue.empty], List.nodup_nil,
      by simp [StableQueue.empty]⟩, hcounter⟩
    rw [start, hempty]
    exact StableQueue.realizedBy_empty _ _
  exact always_of_invariant step_inv (fun _ h => h.popsLeast) hinv hproper

def threeRanked : List (PriorityOp Unit) :=
  let job (name : String) (priority : ℕ) : InMemoryStore.NewJob Unit :=
    (name, some { priority }, ())
  [.addBulk [job "a" 5, job "b" 2] {} false ⟨0, 0⟩, .popSet, .addBulk [job "c" 5] {} true ⟨0, 0⟩,
    .popSet, .popSet, .popSet]

theorem threeRanked_pops_least :
    Always step PopsLeast (start InMemoryStore.mail) threeRanked :=
  pops_least_waiting InMemoryStore.mail rfl rfl threeRanked (by decide +kernel)

end PriorityRun

end Kiomq
