import Kiomq.Foundations.Parties
import Kiomq.Foundations.Tickets
import Kiomq.Interleavings.FreshJob

/-!
# Allocating ids for several clients

`incr` advances a counter with `fetch_add` and reads it back with a separate `load`.
Any number of clients run `add_bulk` on one store, one atomic operation at a time. An
id belongs to its client if no other client advances the counter between the two; the
same is true of the priority counter, from which the scores of prioritized jobs are
made. Then ids are distinct and no record and no prioritized entry is overwritten. A
delayed job is filed under its due time, which no counter makes unique.
-/

namespace Kiomq

open Foundations InMemoryStore

variable {D R P : Type}

/-- Where a client is in `add_bulk`; `rest` are the items still to be added. -/
inductive AddPc (D R P : Type)
  | ready (items : List (NewJob D))
  | prioAdded (item : NewJob D) (rest : List (NewJob D))
  | prioRead (pc : ℕ) (item : NewJob D) (rest : List (NewJob D))
  | idAdded (pc : ℕ) (item : NewJob D) (rest : List (NewJob D))
  | inserting (p : Insertion D R P) (at_ : InsertPc) (rest : List (NewJob D))
  | rejected

structure AddArgs where
  isPaused : Bool
  clock : Clock

def addStep (queueOpts : QueueOpts) (x : AddArgs) (s : InMemoryStore D R P) :
    AddPc D R P → Option (InMemoryStore D R P × AddPc D R P)
  | .ready [] => none
  | .ready (item :: rest) =>
    if 0 < (NewJob.opts queueOpts item).priority then
      some ({ s with priorityCounter := s.priorityCounter + 1 }, .prioAdded item rest)
    else some ({ s with idCounter := s.idCounter + 1 }, .idAdded 0 item rest)
  | .prioAdded item rest => some (s, .prioRead s.priorityCounter item rest)
  | .prioRead pc item rest => some ({ s with idCounter := s.idCounter + 1 }, .idAdded pc item rest)
  | .idAdded pc item rest =>
    let opts := NewJob.opts queueOpts item
    let queueName := s.keyPrefix ++ ":" ++ s.name
    let job := Job.new item.1 (some item.2.2) opts.id (some queueName) x.clock.utc
    match checkOptions job opts x.clock.utc with
    | .error _ => some (s, .rejected)
    | .ok a => some (s, .inserting ⟨a, pc, s.idCounter, item.1, x.isPaused⟩ .start rest)
  | .inserting p at_ rest =>
    (insertStep p s at_).map fun out =>
      (out.1, if out.2 = .done then .ready rest else .inserting p out.2 rest)
  | .rejected => none

def addAlone (queueOpts : QueueOpts) (c : InMemoryStore D R P × AddPc D R P) (x : AddArgs) :
    Option (InMemoryStore D R P × AddPc D R P) :=
  addStep queueOpts x c.1 c.2

theorem addAlone_insert (queueOpts : QueueOpts) (x : AddArgs) (s : InMemoryStore D R P) (pc : ℕ)
    (item : NewJob D) (rest : List (NewJob D)) :
    ∃ k end_, run (addAlone queueOpts) (s, .idAdded pc item rest) (List.replicate k x) = some end_ ∧
      (InMemoryStore.insert s (Job.new item.1 (some item.2.2) (NewJob.opts queueOpts item).id
        (some (s.keyPrefix ++ ":" ++ s.name)) x.clock.utc) (NewJob.opts queueOpts item) pc
        s.idCounter item.1 x.isPaused x.clock).2 = end_.1 := by
  cases hcheck : checkOptions (R := R) (P := P) (Job.new item.1 (some item.2.2)
      (NewJob.opts queueOpts item).id (some (s.keyPrefix ++ ":" ++ s.name)) x.clock.utc)
      (NewJob.opts queueOpts item) x.clock.utc with
  | error e =>
    refine ⟨1, (s, .rejected), ?_, ?_⟩
    · simp [run, addAlone, addStep, hcheck]
    · simp only [InMemoryStore.insert, hcheck]
  | ok a =>
    refine ⟨4, (_, .ready rest), ?_, rfl⟩
    simp [run, addAlone, addStep, hcheck, insertStep, InMemoryStore.insert]

/-- Without interruption the operations of a client compose to `addOne`. -/
theorem addAlone_addOne (queueOpts : QueueOpts) (x : AddArgs) (s : InMemoryStore D R P)
    (item : NewJob D) (rest : List (NewJob D)) :
    ∃ k end_, run (addAlone queueOpts) (s, .ready (item :: rest)) (List.replicate k x) =
      some end_ ∧ (s.addOne item queueOpts x.isPaused x.clock).2 = end_.1 := by
  by_cases hprio : 0 < (NewJob.opts queueOpts item).priority
  · obtain ⟨k, end_, hrun, heq⟩ := addAlone_insert queueOpts x
      { s with priorityCounter := s.priorityCounter + 1, idCounter := s.idCounter + 1 }
      (s.priorityCounter + 1) item rest
    refine ⟨k + 3, end_, ?_, ?_⟩
    · simpa [List.replicate_succ, run, addAlone, addStep, hprio] using hrun
    · rw [← heq]
      have hprio' : 0 < (updateJobOpts queueOpts (item.2.1.getD {})).priority := hprio
      simp only [addOne, if_pos hprio']
      rfl
  · obtain ⟨k, end_, hrun, heq⟩ := addAlone_insert queueOpts x
      { s with idCounter := s.idCounter + 1 } 0 item rest
    refine ⟨k + 1, end_, ?_, ?_⟩
    · simpa [List.replicate_succ, run, addAlone, addStep, hprio] using hrun
    · rw [← heq]
      have hprio' : ¬ 0 < (updateJobOpts queueOpts (item.2.1.getD {})).priority := hprio
      simp only [addOne, if_neg hprio']
      rfl

namespace AddPc

/-- The client has advanced the id counter and not read it yet. -/
def idWindow : AddPc D R P → Bool
  | idAdded _ _ _ => true
  | _ => false

/-- The client has advanced the priority counter and not read it yet. -/
def prioWindow : AddPc D R P → Bool
  | prioAdded _ _ => true
  | _ => false

/-- The next operation of the client is `fetch_add` on the id counter. -/
def advancesId (queueOpts : QueueOpts) : AddPc D R P → Bool
  | ready (item :: _) => decide ((NewJob.opts queueOpts item).priority = 0)
  | prioRead _ _ _ => true
  | _ => false

/-- The next operation of the client is `fetch_add` on the priority counter. -/
def advancesPrio (queueOpts : QueueOpts) : AddPc D R P → Bool
  | ready (item :: _) => decide (0 < (NewJob.opts queueOpts item).priority)
  | _ => false

/-- The client has read the id and not stored its record yet. -/
def holdsId (n : ℕ) : AddPc D R P → Bool
  | inserting p .start _ => decide (p.id = n)
  | inserting p (.placed _ _) _ => decide (p.id = n)
  | _ => false

/-- The client has read the priority counter and not filed its job yet. A job without
priority goes with the number 0. -/
def holdsPrio (n : ℕ) : AddPc D R P → Bool
  | prioRead c _ _ => decide (0 < n ∧ c = n)
  | idAdded c _ _ => decide (0 < n ∧ c = n)
  | inserting p .start _ => decide (0 < n ∧ p.prioCounter = n)
  | _ => false

/-- A job with a priority goes with a number that was read from the counter. -/
def Ranked (queueOpts : QueueOpts) : AddPc D R P → Prop
  | prioRead c _ _ => 0 < c
  | idAdded c item _ => 0 < (NewJob.opts queueOpts item).priority → 0 < c
  | inserting p .start _ => 0 < p.admission.job.opts.priority → 0 < p.prioCounter
  | _ => True

end AddPc

/-- The score of a prioritized job, as the key that it is filed under. -/
def priorityKey (p : Insertion D R P) : ℕ :=
  castUnsigned (castSigned
    (calculateNextPriorityScore p.admission.job.opts.priority p.prioCounter))

/-- Another delayed job is filed under the due time of the job that is about to be filed. -/
def dueTaken (s : InMemoryStore D R P) (p : Insertion D R P) : Bool :=
  decide (0 < p.admission.delay) &&
    p.admission.expected.any fun t => s.delayed.containsKey (castUnsigned t)

/-- Another prioritized job is filed under the score of the job that is about to be filed. -/
def scoreTaken (s : InMemoryStore D R P) (p : Insertion D R P) : Bool :=
  decide (¬ 0 < p.admission.delay ∧ 0 < p.admission.job.opts.priority) &&
    s.prioritized.containsKey (priorityKey p)

/-- The id that the operation hands out. -/
def issuedId (s : InMemoryStore D R P) : AddPc D R P → List ℕ
  | .idAdded _ _ _ => [s.idCounter]
  | _ => []

def issuedPrio (s : InMemoryStore D R P) : AddPc D R P → List ℕ
  | .prioAdded _ _ => [s.priorityCounter]
  | _ => []

/-- The id of the job whose entry or record is written over that of another one. -/
def overwrites (s : InMemoryStore D R P) : AddPc D R P → List ℕ
  | .inserting p .start _ => if dueTaken s p || scoreTaken s p then [p.id] else []
  | .inserting p (.placed _ _) _ => if s.jobExists p.id then [p.id] else []
  | _ => []

/-- The store and the clients, with the history of the numbers read from the two
counters and of the overwritten jobs. -/
structure AllocState (D R P : Type) where
  store : InMemoryStore D R P
  clients : List (AddPc D R P)
  ids : List ℕ
  prios : List ℕ
  overwritten : List ℕ

inductive AllocAction (D : Type)
  | call (i : ℕ) (items : List (NewJob D))
  | client (i : ℕ) (x : AddArgs)

namespace AllocState

def start (s : InMemoryStore D R P) (n : ℕ) : AllocState D R P :=
  ⟨s, List.replicate n (.ready []), [], [], []⟩

/-- A client whose last call has returned may call again. -/
def step (queueOpts : QueueOpts) (σ : AllocState D R P) :
    AllocAction D → Option (AllocState D R P)
  | .call i items =>
    match σ.clients[i]? with
    | some (.ready []) => some { σ with clients := σ.clients.set i (.ready items) }
    | some .rejected => some { σ with clients := σ.clients.set i (.ready items) }
    | _ => none
  | .client i x =>
    σ.clients[i]?.bind fun pc => (addStep queueOpts x σ.store pc).map fun out =>
      { store := out.1
        clients := σ.clients.set i out.2
        ids := issuedId σ.store pc ++ σ.ids
        prios := issuedPrio σ.store pc ++ σ.prios
        overwritten := overwrites σ.store pc ++ σ.overwritten }

/-- Ids are distinct, and no job has been overwritten. -/
def Distinct (σ : AllocState D R P) : Prop := σ.ids.Nodup ∧ σ.overwritten = []

/-- A counter is advanced only while no client is between its `fetch_add` and its `load`,
the priority counter stays below `2 ^ 32`, and delayed jobs have different due times. -/
def Exclusive (queueOpts : QueueOpts) (σ : AllocState D R P) : AllocAction D → Prop
  | .call _ _ => True
  | .client i _ =>
    match σ.clients[i]? with
    | none => True
    | some pc =>
      (pc.advancesId queueOpts = true → ∀ c ∈ σ.clients, c.idWindow = false) ∧
        (pc.advancesPrio queueOpts = true →
          (∀ c ∈ σ.clients, c.prioWindow = false) ∧ σ.store.priorityCounter + 1 < 2 ^ 32) ∧
        match pc with
        | .inserting p .start _ => dueTaken σ.store p = false
        | _ => True

instance (queueOpts : QueueOpts) (σ : AllocState D R P) (a : AllocAction D) :
    Decidable (Exclusive queueOpts σ a) := by
  cases a with
  | call i items => exact isTrue trivial
  | client i x =>
    unfold Exclusive
    simp only
    split
    · infer_instance
    · have : ∀ pc : AddPc D R P, Decidable (match pc with
          | .inserting p .start _ => dueTaken σ.store p = false
          | _ => True) := by
        intro pc
        split <;> infer_instance
      infer_instance

/-! ### The two counters as tickets -/

/-- An id is used when its record is stored. -/
def idTickets (σ : AllocState D R P) : Tickets where
  counter := σ.store.idCounter
  window := σ.clients.countP AddPc.idWindow
  issued := σ.ids
  held n := σ.clients.countP (AddPc.holdsId n)
  used n := (σ.store.getJob n).isSome = true

/-- A number of the priority counter is used when a job is filed: the lower bits of the
score are the number. -/
def prioTickets (σ : AllocState D R P) : Tickets where
  counter := σ.store.priorityCounter
  window := σ.clients.countP AddPc.prioWindow
  issued := σ.prios
  held n := σ.clients.countP (AddPc.holdsPrio n)
  used n := ∃ key, σ.store.prioritized.containsKey key = true ∧ key % 2 ^ 32 = n

structure Inv (queueOpts : QueueOpts) (s : InMemoryStore D R P) (σ : AllocState D R P) :
    Prop where
  ids : σ.idTickets.Inv s.idCounter
  prios : σ.prioTickets.Inv s.priorityCounter
  small : σ.store.priorityCounter < 2 ^ 32
  ranked : ∀ c ∈ σ.clients, c.Ranked queueOpts
  clean : σ.overwritten = []

variable {queueOpts : QueueOpts} {s : InMemoryStore D R P} {σ : AllocState D R P} {i : ℕ}
  {item : NewJob D} {rest : List (NewJob D)}

theorem Inv.move (h : Inv queueOpts s σ) {pc : AddPc D R P} (hi : σ.clients[i]? = some pc)
    (hid : pc.idWindow = false) (hprio : pc.prioWindow = false) (items : List (NewJob D))
    {t : InMemoryStore D R P} (hjobs : t.getJob = σ.store.getJob)
    (hidc : t.idCounter = σ.store.idCounter) (hpc : t.priorityCounter = σ.store.priorityCounter)
    (hscores : t.prioritized = σ.store.prioritized) :
    Inv queueOpts s { σ with store := t, clients := σ.clients.set i (.ready items) } where
  ids := h.ids.frame hidc (countP_set_eq hi hid.symm) rfl
    (fun n => countP_set_le hi fun hn => nomatch hn)
    (fun n hu => by simpa only [idTickets, hjobs] using hu)
  prios := h.prios.frame hpc (countP_set_eq hi hprio.symm) rfl
    (fun n => countP_set_le hi fun hn => nomatch hn)
    (fun n hu => by simpa only [prioTickets, hscores] using hu)
  small := hpc ▸ h.small
  ranked := forall_mem_set h.ranked trivial
  clean := h.clean

theorem Inv.advancePrio (h : Inv queueOpts s σ)
    (hi : σ.clients[i]? = some (.ready (item :: rest)))
    (hfree : ∀ c ∈ σ.clients, c.prioWindow = false)
    (hsmall : σ.store.priorityCounter + 1 < 2 ^ 32) :
    Inv queueOpts s { σ with
      store := { σ.store with priorityCounter := σ.store.priorityCounter + 1 }
      clients := σ.clients.set i (.prioAdded item rest) } where
  ids := h.ids.frame rfl (countP_set_eq hi rfl) rfl (fun _ => countP_set_le hi id)
    (fun _ hu => hu)
  prios := h.prios.advance (countP_eq_zero_of_forall hfree) rfl (countP_set_enter hi rfl rfl) rfl
    (fun _ => countP_set_le hi id) (fun _ hu => hu)
  small := hsmall
  ranked := forall_mem_set h.ranked trivial
  clean := h.clean

theorem Inv.loadPrio (h : Inv queueOpts s σ) (hi : σ.clients[i]? = some (.prioAdded item rest)) :
    Inv queueOpts s { σ with
      clients := σ.clients.set i (.prioRead σ.store.priorityCounter item rest)
      prios := σ.store.priorityCounter :: σ.prios } where
  ids := h.ids.frame rfl (countP_set_eq hi rfl) rfl (fun _ => countP_set_le hi id)
    (fun _ hu => hu)
  prios := h.prios.load rfl (countP_set_leave hi rfl rfl) rfl
    (fun n => countP_set_le_add hi fun hn => by
      simp only [AddPc.holdsPrio, decide_eq_true_eq] at hn
      exact hn.2.symm)
    (fun _ hu => hu)
  small := h.small
  ranked := by
    refine forall_mem_set h.ranked ?_
    have hwindow : 0 < σ.clients.countP AddPc.prioWindow := countP_pos_of_getElem? hi rfl
    have hahead : s.priorityCounter + σ.clients.countP AddPc.prioWindow ≤
        σ.store.priorityCounter := h.prios.base_le
    simp only [AddPc.Ranked]
    omega
  clean := h.clean

theorem Inv.advanceId (h : Inv queueOpts s σ) {pc : AddPc D R P} (hi : σ.clients[i]? = some pc)
    (hfree : ∀ c ∈ σ.clients, c.idWindow = false) (hprio : pc.prioWindow = false)
    (hid : ∀ n, pc.holdsId n = false) {c : ℕ}
    (hc : ∀ n, (AddPc.idAdded c item rest : AddPc D R P).holdsPrio n = pc.holdsPrio n)
    (hranked : (AddPc.idAdded c item rest : AddPc D R P).Ranked queueOpts) :
    Inv queueOpts s { σ with
      store := { σ.store with idCounter := σ.store.idCounter + 1 }
      clients := σ.clients.set i (.idAdded c item rest) } where
  ids := h.ids.advance (countP_eq_zero_of_forall hfree) rfl
    (countP_set_enter hi (hfree pc (List.mem_of_getElem? hi)) rfl) rfl
    (fun n => (countP_set_eq hi (hid n).symm).le) (fun _ hu => hu)
  prios := h.prios.frame rfl (countP_set_eq hi hprio.symm) rfl
    (fun n => (countP_set_eq hi (hc n)).le) (fun _ hu => hu)
  small := h.small
  ranked := forall_mem_set h.ranked hranked
  clean := h.clean

theorem Inv.loadId (h : Inv queueOpts s σ) {c : ℕ}
    (hi : σ.clients[i]? = some (.idAdded c item rest))
    {pc : AddPc D R P} (hid : pc.idWindow = false) (hprio : pc.prioWindow = false)
    (hown : ∀ n, pc.holdsId n = true → n = σ.store.idCounter)
    (hc : ∀ n, pc.holdsPrio n = true → 0 < n ∧ c = n) (hranked : pc.Ranked queueOpts) :
    Inv queueOpts s { σ with
      clients := σ.clients.set i pc
      ids := σ.store.idCounter :: σ.ids } where
  ids := h.ids.load rfl (countP_set_leave hi rfl hid) rfl
    (fun n => countP_set_le_add hi (hown n)) (fun _ hu => hu)
  prios := h.prios.frame rfl (countP_set_eq hi hprio) rfl
    (fun n => countP_set_le hi fun hn => by simpa [AddPc.holdsPrio] using hc n hn)
    (fun _ hu => hu)
  small := h.small
  ranked := forall_mem_set h.ranked hranked
  clean := h.clean

/-- The lower half of a score is the number that was read from the priority counter. -/
theorem priorityKey_mod (p : Insertion D R P) :
    priorityKey p % 2 ^ 32 = p.prioCounter % 2 ^ 32 := by
  unfold priorityKey calculateNextPriorityScore castUnsigned castSigned
  split_ifs <;> omega

theorem place_prioritized (t : InMemoryStore D R P) (p : Insertion D R P) :
    (t.place p.admission p.prioCounter p.id p.isPaused).2.prioritized =
      if ¬ 0 < p.admission.delay ∧ 0 < p.admission.job.opts.priority then
        t.prioritized.insert (priorityKey p) p.id
      else t.prioritized := by
  by_cases hd : 0 < p.admission.delay
  · rw [if_neg (by tauto)]
    cases he : p.admission.expected with
    | none => simp only [place, if_pos hd, he]
    | some due => simp only [place, if_pos hd, he, addItem]
  · by_cases hp : 0 < p.admission.job.opts.priority
    · rw [if_pos ⟨hd, hp⟩]
      simp only [place, if_neg hd, if_pos hp, addItem]
      rfl
    · rw [if_neg (by tauto)]
      cases hpaused : p.isPaused <;>
        simp [place, if_neg hd, if_neg hp, addItem]

theorem place_priorityCounter (t : InMemoryStore D R P) (p : Insertion D R P) :
    (t.place p.admission p.prioCounter p.id p.isPaused).2.priorityCounter = t.priorityCounter := by
  by_cases hd : 0 < p.admission.delay
  · cases he : p.admission.expected with
    | none => simp only [place, if_pos hd, he]
    | some due => simp only [place, if_pos hd, he, addItem]
  · by_cases hp : 0 < p.admission.job.opts.priority
    · simp only [place, if_neg hd, if_pos hp, addItem]
    · cases hpaused : p.isPaused <;>
        simp [place, if_neg hd, if_neg hp, addItem]

/-- The holder of a number finds its score free. -/
theorem Inv.scoreFree (h : Inv queueOpts s σ) {p : Insertion D R P}
    (hi : σ.clients[i]? = some (.inserting p .start rest)) : scoreTaken σ.store p = false := by
  by_contra htaken
  simp only [scoreTaken, Bool.not_eq_false, Bool.and_eq_true, decide_eq_true_eq] at htaken
  obtain ⟨⟨-, hp⟩, hkey⟩ := htaken
  have hpos : 0 < p.prioCounter := h.ranked _ (List.mem_of_getElem? hi) hp
  have hheld : 0 < σ.prioTickets.held p.prioCounter :=
    countP_pos_of_getElem? hi (by simpa [AddPc.holdsPrio] using hpos)
  obtain ⟨hmem, hfresh⟩ := h.prios.held_fresh _ hheld
  have hle : p.prioCounter + _ ≤ σ.store.priorityCounter := (h.prios.issued_le _ hmem).2
  have hsmall := h.small
  refine hfresh ⟨_, hkey, ?_⟩
  rw [priorityKey_mod]
  exact Nat.mod_eq_of_lt (by omega)

theorem Inv.place (h : Inv queueOpts s σ) {p : Insertion D R P}
    (hi : σ.clients[i]? = some (.inserting p .start rest)) (state event : JobState) :
    Inv queueOpts s { σ with
      store := (σ.store.place p.admission p.prioCounter p.id p.isPaused).2
      clients := σ.clients.set i (.inserting p (.placed state event) rest) } := by
  obtain ⟨-, -, hjob, hidc, -⟩ := σ.store.place_spec p.admission p.prioCounter p.id p.isPaused
  have hpc := place_priorityCounter σ.store p
  have hscores := place_prioritized σ.store p
  refine ⟨?_, ?_, hpc.trans_lt h.small, forall_mem_set h.ranked trivial, h.clean⟩
  · exact h.ids.frame hidc (countP_set_eq hi rfl) rfl (fun _ => countP_set_le hi id)
      (fun n hu => by simpa only [idTickets, hjob] using hu)
  · by_cases hp : ¬ 0 < p.admission.delay ∧ 0 < p.admission.job.opts.priority
    · rw [if_pos hp] at hscores
      have hpos : 0 < p.prioCounter := h.ranked _ (List.mem_of_getElem? hi) hp.2
      have hheld : 0 < σ.prioTickets.held p.prioCounter :=
        countP_pos_of_getElem? hi (by simpa [AddPc.holdsPrio] using hpos)
      obtain ⟨hmem, -⟩ := h.prios.held_fresh _ hheld
      have hle : p.prioCounter + _ ≤ σ.store.priorityCounter := (h.prios.issued_le _ hmem).2
      have hsmall := h.small
      refine h.prios.use p.prioCounter hheld hpc (countP_set_eq hi rfl) rfl
        (fun n => countP_set_add_le hi (fun hn => ?_) rfl) ?_
      · subst hn
        simpa [AddPc.holdsPrio] using hpos
      · rintro n ⟨key, hkey, rfl⟩
        simp only [hscores, OrderedMap.containsKey_eq, OrderedMap.get?_insert] at hkey
        split_ifs at hkey with heq
        · right
          rw [heq, priorityKey_mod]
          exact Nat.mod_eq_of_lt (by omega)
        · exact Or.inl ⟨key, by rwa [OrderedMap.containsKey_eq], rfl⟩
    · rw [if_neg hp] at hscores
      exact h.prios.frame hpc (countP_set_eq hi rfl) rfl
        (fun n => countP_set_le hi (by simp [AddPc.holdsPrio]))
        (fun n hu => by simpa only [prioTickets, hscores] using hu)

theorem Inv.recordFree (h : Inv queueOpts s σ) {p : Insertion D R P} {state event : JobState}
    (hi : σ.clients[i]? = some (.inserting p (.placed state event) rest)) :
    σ.store.jobExists p.id = false := by
  have hheld : 0 < σ.idTickets.held p.id := countP_pos_of_getElem? hi (by simp [AddPc.holdsId])
  have hfresh : ¬ (σ.store.getJob p.id).isSome = true := (h.ids.held_fresh _ hheld).2
  simpa [jobExists] using hfresh

theorem Inv.storeRecord (h : Inv queueOpts s σ) {p : Insertion D R P} {state event : JobState}
    (hi : σ.clients[i]? = some (.inserting p (.placed state event) rest)) (job : Job D R P) :
    Inv queueOpts s { σ with
      store := σ.store.storeRecord p.id job
      clients := σ.clients.set i (.inserting p (.stored event) rest) } where
  ids := by
    have hheld : 0 < σ.idTickets.held p.id := countP_pos_of_getElem? hi (by simp [AddPc.holdsId])
    refine h.ids.use p.id hheld rfl (countP_set_eq hi rfl) rfl
      (fun n => countP_set_add_le hi (fun hn => by simp [AddPc.holdsId, hn]) rfl) ?_
    intro n hu
    by_cases hn : n = p.id
    · exact Or.inr hn
    · left
      simpa [idTickets, getJob, InMemoryStore.storeRecord, RecordMap.get_insertConstant, hn]
        using hu
  prios := h.prios.frame rfl (countP_set_eq hi rfl) rfl (fun _ => countP_set_le hi id)
    (fun _ hu => hu)
  small := h.small
  ranked := forall_mem_set h.ranked trivial
  clean := h.clean

theorem step_inv (queueOpts : QueueOpts) (s : InMemoryStore D R P) (σ : AllocState D R P)
    (a : AllocAction D) (τ : AllocState D R P) (h : Inv queueOpts s σ)
    (hguard : Exclusive queueOpts σ a) (hstep : step queueOpts σ a = some τ) :
    Inv queueOpts s τ := by
  cases a with
  | call i items =>
    simp only [step] at hstep
    split at hstep
    · next hi =>
      obtain rfl := Option.some.inj hstep
      exact h.move hi rfl rfl items rfl rfl rfl rfl
    · next hi =>
      obtain rfl := Option.some.inj hstep
      exact h.move hi rfl rfl items rfl rfl rfl rfl
    · simp at hstep
  | client i x =>
    obtain ⟨pc, hi, hstep⟩ := Option.bind_eq_some_iff.mp hstep
    obtain ⟨out, hout, rfl⟩ := Option.map_eq_some_iff.mp hstep
    simp only [Exclusive, hi] at hguard
    obtain ⟨hid, hprio, hdue⟩ := hguard
    cases pc with
    | ready items =>
      cases items with
      | nil => simp [addStep] at hout
      | cons item rest =>
        simp only [addStep] at hout
        split_ifs at hout with hp
        · obtain rfl := Option.some.inj hout
          obtain ⟨hfree, hsmall⟩ := hprio (by simpa [AddPc.advancesPrio] using hp)
          exact h.advancePrio hi hfree hsmall
        · obtain rfl := Option.some.inj hout
          have hzero : (NewJob.opts queueOpts item).priority = 0 := by omega
          refine h.advanceId hi (hid (by simpa [AddPc.advancesId] using hzero)) rfl (fun n => rfl)
            (fun n => ?_) (fun hp' => absurd hp' hp)
          simp only [AddPc.holdsPrio, decide_eq_false_iff_not]
          omega
    | prioAdded item rest =>
      obtain rfl := Option.some.inj hout
      exact h.loadPrio hi
    | prioRead c item rest =>
      obtain rfl := Option.some.inj hout
      have hranked := h.ranked _ (List.mem_of_getElem? hi)
      exact h.advanceId hi (hid rfl) rfl (fun n => rfl) (fun n => rfl) (fun _ => hranked)
    | idAdded c item rest =>
      simp only [addStep] at hout
      split at hout
      · obtain rfl := Option.some.inj hout
        exact h.loadId hi rfl rfl (by simp [AddPc.holdsId]) (by simp [AddPc.holdsPrio]) trivial
      · next a hcheck =>
        obtain rfl := Option.some.inj hout
        have hranked := h.ranked _ (List.mem_of_getElem? hi)
        refine h.loadId hi rfl rfl (by simp [AddPc.holdsId]) (by simp [AddPc.holdsPrio]) ?_
        simp only [AddPc.Ranked, (checkOptions_spec hcheck).1]
        exact hranked
    | inserting p at_ rest =>
      obtain ⟨out', hins, rfl⟩ := Option.map_eq_some_iff.mp hout
      cases at_ with
      | start =>
        obtain rfl := Option.some.inj hins
        simp only [overwrites, hdue, h.scoreFree hi, issuedId, issuedPrio, Bool.or_false,
          Bool.false_eq_true, if_false, List.nil_append, reduceCtorEq]
        exact h.place hi _ _
      | placed state event =>
        obtain rfl := Option.some.inj hins
        simp only [overwrites, h.recordFree hi, issuedId, issuedPrio,
          Bool.false_eq_true, if_false, List.nil_append, reduceCtorEq]
        exact h.storeRecord hi _
      | stored event =>
        obtain rfl := Option.some.inj hins
        exact h.move hi rfl rfl rest rfl rfl rfl rfl
      | done => simp [insertStep] at hins
    | rejected => simp [addStep] at hout

/-- A store whose counters are not behind its records and scores. -/
structure Current (s : InMemoryStore D R P) : Prop where
  records : ∀ n job, s.getJob n = some job → n ≤ s.idCounter
  scores : ∀ key, s.prioritized.containsKey key = true → key % 2 ^ 32 ≤ s.priorityCounter
  small : s.priorityCounter < 2 ^ 32

theorem start_inv (queueOpts : QueueOpts) (hs : Current s) (n : ℕ) :
    Inv queueOpts s (start s n) := by
  have hready : ∀ c ∈ (start s n).clients, c = .ready [] := fun c hc => List.eq_of_mem_replicate hc
  have hzero : ∀ p : AddPc D R P → Bool, p (.ready []) = false →
      (start s n).clients.countP p = 0 := by
    intro p hp
    apply countP_eq_zero_of_forall
    intro c hc
    rw [hready c hc, hp]
  have hidw := hzero AddPc.idWindow rfl
  have hprw := hzero AddPc.prioWindow rfl
  have hids := fun m => hzero (AddPc.holdsId m) rfl
  have hprs := fun m => hzero (AddPc.holdsPrio m) rfl
  constructor
  · refine ⟨?_, ?_, by simp [idTickets, start], by simp [idTickets, start], ?_, ?_, ?_⟩
    · simp [idTickets, hidw]
    · exact (congrArg (s.idCounter + ·) hidw).le
    · simp [idTickets, hids]
    · simp [idTickets, hids]
    · intro m hm
      obtain ⟨job, hjob⟩ := Option.isSome_iff_exists.mp hm
      exact Or.inl (hs.records m job hjob)
  · refine ⟨?_, ?_, by simp [prioTickets, start], by simp [prioTickets, start], ?_, ?_, ?_⟩
    · simp [prioTickets, hprw]
    · exact (congrArg (s.priorityCounter + ·) hprw).le
    · simp [prioTickets, hprs]
    · simp [prioTickets, hprs]
    · rintro m ⟨key, hkey, rfl⟩
      exact Or.inl (hs.scores key hkey)
  · exact hs.small
  · intro c hc
    rw [hready c hc]
    trivial
  · rfl

/-- Any number of clients on one store: if their operations are exclusive, ids are
distinct and no job is overwritten. -/
theorem ids_distinct_of_exclusive (queueOpts : QueueOpts) (s : InMemoryStore D R P)
    (hs : Current s) (n : ℕ) (as : List (AllocAction D))
    (h : Guarded (step queueOpts) (Exclusive queueOpts) (start s n) as) :
    Always (step queueOpts) Distinct (start s n) as :=
  always_of_invariant (step_inv queueOpts s) (fun _ hinv => ⟨hinv.ids.nodup, hinv.clean⟩)
    (start_inv queueOpts hs n) h

theorem new_current (keyPrefix : Option String) (name : String) :
    Current (InMemoryStore.new keyPrefix name : InMemoryStore D R P) where
  records n job h := nomatch (show none = some job from h)
  scores key h := by simp [InMemoryStore.new, OrderedMap.containsKey] at h
  small := by simp [InMemoryStore.new]

/-- Two clients that wait for each other around the `load` of the id counter. -/
def takingTurns : List (AllocAction ℕ) :=
  let x : AddArgs := ⟨false, ⟨0, 0⟩⟩
  [.call 0 [("a", none, 1), ("b", some { priority := 5 }, 2)], .call 1 [("c", none, 3)]] ++
    [.client 0 x, .client 0 x, .client 1 x, .client 1 x, .client 0 x, .client 1 x, .client 0 x,
      .client 0 x, .client 0 x, .client 0 x, .client 1 x, .client 0 x, .client 1 x, .client 0 x]

theorem takingTurns_distinct :
    (run (step {}) (start (.new none "mail") 2 : AllocState ℕ Unit Unit) takingTurns).map ids =
        some [3, 2, 1] ∧
      Guarded (step {}) (Exclusive {}) (start (.new none "mail") 2 : AllocState ℕ Unit Unit)
        takingTurns ∧
      Always (step {}) Distinct (start (.new none "mail") 2 : AllocState ℕ Unit Unit)
        takingTurns :=
  ⟨by decide +kernel, by decide +kernel,
    ids_distinct_of_exclusive {} _ (new_current none "mail") 2 takingTurns (by decide +kernel)⟩

/-- Both clients advance the id counter before one of them reads it. -/
def collidingAdds : List (AllocAction ℕ) :=
  let x : AddArgs := ⟨false, ⟨0, 0⟩⟩
  [.call 0 [("a", none, 1)], .call 1 [("b", none, 2)], .client 0 x, .client 1 x, .client 0 x,
    .client 1 x, .client 0 x, .client 1 x, .client 0 x, .client 1 x]

/-- Both read 2. The id is in the waiting list twice, and the record of the first job is
overwritten by that of the second one. -/
theorem collidingAdds_overwrite :
    (run (step {}) (start (.new none "mail") 2 : AllocState ℕ Unit Unit) collidingAdds).map
        (fun σ => (σ.ids, σ.overwritten, σ.store.waiting.values)) = some ([2, 2], [2], [2, 2]) ∧
      ¬ Always (step {}) Distinct (start (.new none "mail") 2 : AllocState ℕ Unit Unit)
        collidingAdds := by
  refine ⟨by decide +kernel, not_always_of_run (fun σ => decide (¬ σ.ids.Nodup))
    (fun σ hσ hdistinct => ?_) (by decide +kernel)⟩
  exact of_decide_eq_true hσ hdistinct.1

end AllocState

end Kiomq
