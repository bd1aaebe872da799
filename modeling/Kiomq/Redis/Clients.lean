import Kiomq.Foundations.Parties
import Kiomq.Redis.Counters

/-!
# Several clients of the Redis store

Any number of clients call `add` for one queue, one command of the server at a time. The
call is written as a transaction: it watches the two counters, reads them and sends one
atomic pipeline. But the pipeline is cut into chunks, and a chunk is a new pipeline that is
not atomic. So no `EXEC` is ever sent, `WATCH` has no effect, and another client can read
the id counter between the read and the increment of a client. The ids are distinct if no
client does so.
-/

namespace Kiomq

open Foundations Redis InMemoryStore

/-! ### Sending a pipeline -/

/-- A pipeline, and whether it is sent as one `MULTI`/`EXEC` block. -/
structure Pipeline (V M : Type) where
  commands : List (Cmd V M)
  transactionMode : Bool

namespace Pipeline

variable {V M : Type}

/-- `cmds.chunks(size)`; the number of commands bounds the number of chunks. -/
def chunks (size : ℕ) : ℕ → List (Cmd V M) → List (List (Cmd V M))
  | 0, _ => []
  | _ + 1, [] => []
  | fuel + 1, cmds => cmds.take size :: chunks size fuel (cmds.drop size)

/-- The chunks are new pipelines; the mode of the given one is not passed on. -/
def splitPipeline (p : Pipeline V M) (chunkSize : ℕ) : List (Pipeline V M) :=
  (chunks chunkSize p.commands.length p.commands).map fun chunk => ⟨chunk, false⟩

/-- The commands that the server carries out without interruption. -/
def blocks (p : Pipeline V M) : List (List (Cmd V M)) :=
  if p.transactionMode then [p.commands] else p.commands.map fun c => [c]

/-- What reaches the server, in order. -/
def queryAllBatched (p : Pipeline V M) : List (List (Cmd V M)) :=
  (p.splitPipeline 10000).flatMap blocks

theorem flatten_chunks {size : ℕ} (hsize : 0 < size) (fuel : ℕ) (cmds : List (Cmd V M))
    (h : cmds.length ≤ fuel) : (chunks size fuel cmds).flatten = cmds := by
  induction fuel generalizing cmds with
  | zero =>
    have hnil : cmds = [] := List.length_eq_zero_iff.mp (Nat.le_zero.mp h)
    simp [chunks, hnil]
  | succ fuel ih =>
    cases cmds with
    | nil => rfl
    | cons c cmds =>
      have hdrop : ((c :: cmds).drop size).length ≤ fuel := by
        rw [List.length_drop]
        omega
      rw [chunks, List.flatten_cons, ih _ hdrop, List.take_append_drop]
      simp

/-- Whatever the mode of the pipeline, its commands are sent one by one. -/
theorem queryAllBatched_eq (p : Pipeline V M) :
    p.queryAllBatched = p.commands.map fun c => [c] := by
  unfold queryAllBatched splitPipeline
  rw [List.flatMap_map]
  simp only [blocks, Bool.false_eq_true, if_false]
  rw [List.flatMap_def, ← List.map_flatten, flatten_chunks (by decide) _ _ le_rfl]

end Pipeline

/-! ### The clients -/

/-- Where a client is in `add`: before its first command, between the reads of the two
counters, sending its pipeline (`blocks` are still to be sent), or gone after a panic. -/
inductive ClientPoint (D R P V : Type)
  | start
  | readId (id : ℕ)
  | sending (l : AddLoop D R P V) (blocks : List (List (Cmd V (QueueStreamEvent R P))))
  | panicked

structure Client (D R P V : Type) where
  queueOpts : QueueOpts
  call : AddCall D
  point : ClientPoint D R P V

structure Clients (D R P V : Type) where
  server : Server V (QueueStreamEvent R P)
  clients : List (Client D R P V)

variable {D R P V : Type}

namespace ClientPoint

def isStart : ClientPoint D R P V → Bool
  | start => true
  | _ => false

def ids : ClientPoint D R P V → List ℕ
  | sending l _ => l.jobs.filterMap Job.id
  | _ => []

/-- The client has read the id counter and its increment has not been carried out. -/
def allocating (T : CaseTable) (st : RedisStore) : ClientPoint D R P V → Bool
  | start => false
  | readId _ => true
  | sending _ blocks => blocks.any fun block => block.any (Cmd.increments (st.idKey T))
  | panicked => false

end ClientPoint

namespace Clients

/-- The next command of a client. The jobs are built after the second read. -/
def advance (T : CaseTable) (pairs : Job D R P → List (String × V)) (st : RedisStore)
    (r : Server V (QueueStreamEvent R P)) (c : Client D R P V) :
    Option (Server V (QueueStreamEvent R P) × ClientPoint D R P V) :=
  match c.point with
  | .start => some (r, .readId ((r.get (st.idKey T)).getD 0))
  | .readId id =>
    let priorCounter := (r.get (st.pcKey T)).getD 0
    match RedisStore.addLoop T pairs st c.queueOpts c.call c.call.items
        ⟨id + 1, priorCounter + 1, false, [], []⟩ with
    | .error _ => some (r, .panicked)
    | .ok l => some (r, .sending l (Pipeline.queryAllBatched ⟨st.finalPipeline T l, true⟩))
  | .sending l (block :: blocks) => some (r.execAll block, .sending l blocks)
  | .sending _ [] => none
  | .panicked => none

def step (T : CaseTable) (pairs : Job D R P → List (String × V)) (st : RedisStore)
    (σ : Clients D R P V) (i : ℕ) : Option (Clients D R P V) :=
  σ.clients[i]?.bind fun c =>
    (advance T pairs st σ.server c).map fun out =>
      ⟨out.1, σ.clients.set i { c with point := out.2 }⟩

def init (r : Server V (QueueStreamEvent R P)) (calls : List (QueueOpts × AddCall D)) :
    Clients D R P V :=
  ⟨r, calls.map fun c => ⟨c.1, c.2, .start⟩⟩

def DisjointIds (σ : Clients D R P V) : Prop :=
  ∀ (i j : ℕ) (c d : Client D R P V), i ≠ j → σ.clients[i]? = some c → σ.clients[j]? = some d →
    List.Disjoint c.point.ids d.point.ids

/-- The id counter is read while no client is between its read and its increment. -/
def ReadsAlone (T : CaseTable) (st : RedisStore) (σ : Clients D R P V) (i : ℕ) : Prop :=
  σ.clients[i]?.any (fun c => c.point.isStart) = true →
    σ.clients.countP (fun c => c.point.allocating T st) = 0

instance (T : CaseTable) (st : RedisStore) (σ : Clients D R P V) (i : ℕ) :
    Decidable (ReadsAlone T st σ i) := by
  unfold ReadsAlone
  infer_instance

/-! ### A client that is not interrupted -/

theorem run_sending (T : CaseTable) (pairs : Job D R P → List (String × V)) (st : RedisStore)
    (queueOpts : QueueOpts) (call : AddCall D) (l : AddLoop D R P V)
    (r : Server V (QueueStreamEvent R P)) (cmds : List (Cmd V (QueueStreamEvent R P))) :
    run (step T pairs st) ⟨r, [⟨queueOpts, call, .sending l (cmds.map fun c => [c])⟩]⟩
        (List.replicate cmds.length 0) =
      some ⟨r.execAll cmds, [⟨queueOpts, call, .sending l []⟩]⟩ := by
  induction cmds generalizing r with
  | nil => rfl
  | cons cmd cmds ih => exact ih (r.exec cmd)

/-- Without interruption the commands of a client compose to `add`. -/
theorem run_add {T : CaseTable} {pairs : Job D R P → List (String × V)} {st : RedisStore}
    {queueOpts : QueueOpts} {r : Server V (QueueStreamEvent R P)} {call : AddCall D}
    {l : AddLoop D R P V} (h : st.addJobs T pairs queueOpts r call = .ok l) :
    run (step T pairs st) (init r [(queueOpts, call)])
        (0 :: 0 :: List.replicate (st.finalPipeline T l).length 0) =
      some ⟨(st.add T pairs queueOpts r call).2, [⟨queueOpts, call, .sending l []⟩]⟩ := by
  have hserver : (st.add T pairs queueOpts r call).2 = r.execAll (st.finalPipeline T l) := by
    simp only [RedisStore.add, h]
  have hloop : RedisStore.addLoop T pairs st queueOpts call call.items
      ⟨(r.get (st.idKey T)).getD 0 + 1, (r.get (st.pcKey T)).getD 0 + 1, false, [], []⟩ =
        .ok l := h
  have hsend := run_sending T pairs st queueOpts call l r (st.finalPipeline T l)
  rw [← Pipeline.queryAllBatched_eq ⟨st.finalPipeline T l, true⟩, ← hserver] at hsend
  apply run_cons.mpr
  exact ⟨_, rfl, run_cons.mpr ⟨_, by simp [init, step, advance, hloop], hsend⟩⟩

/-! ### The value of the id counter -/

def counter (T : CaseTable) (st : RedisStore) (r : Server V (QueueStreamEvent R P)) : ℕ :=
  (r.get (st.idKey T)).getD 0

/-- What holds of a client while the id counter has the given value. A client whose
increment is still to come has ids above the counter, and the increment will cover them;
the ids of the others are covered. -/
inductive Placed (T : CaseTable) (st : RedisStore) (value : ℕ) : ClientPoint D R P V → Prop
  | start : Placed T st value .start
  | readId : Placed T st value (.readId value)
  | panicked : Placed T st value .panicked
  | before {l : AddLoop D R P V} (front rest : List (Cmd V (QueueStreamEvent R P)))
      (hfront : ∀ c ∈ front, c.increments (st.idKey T) = false)
      (hrest : ∀ c ∈ rest, c.increments (st.idKey T) = false)
      (hids : ∀ x ∈ l.jobs.filterMap Job.id, value < x ∧ x ≤ l.idCounter - 1) :
      Placed T st value (.sending l
        ((front ++ .incr (st.idKey T) (l.idCounter - 1) :: rest).map fun c => [c]))
  | after {l : AddLoop D R P V} (rest : List (Cmd V (QueueStreamEvent R P)))
      (hrest : ∀ c ∈ rest, c.increments (st.idKey T) = false)
      (hids : ∀ x ∈ l.jobs.filterMap Job.id, x ≤ value) :
      Placed T st value (.sending l (rest.map fun c => [c]))

variable {T : CaseTable} {pairs : Job D R P → List (String × V)} {st : RedisStore}

theorem allocating_before (l : AddLoop D R P V)
    (front rest : List (Cmd V (QueueStreamEvent R P))) (delta : ℕ) :
    (ClientPoint.sending l ((front ++ .incr (st.idKey T) delta :: rest).map
      fun c => [c])).allocating T st = true := by
  simp [ClientPoint.allocating, Cmd.increments]

theorem allocating_after (l : AddLoop D R P V) {rest : List (Cmd V (QueueStreamEvent R P))}
    (hrest : ∀ c ∈ rest, c.increments (st.idKey T) = false) :
    (ClientPoint.sending l (rest.map fun c => [c])).allocating T st = false := by
  simpa [ClientPoint.allocating] using hrest

theorem Placed.ids_le {value : ℕ} {p : ClientPoint D R P V} (h : Placed T st value p)
    (hp : p.allocating T st = false) : ∀ x ∈ p.ids, x ≤ value := by
  cases h with
  | start => simp [ClientPoint.ids]
  | readId => simp [ClientPoint.ids]
  | panicked => simp [ClientPoint.ids]
  | before front rest hfront hrest hids =>
    rw [allocating_before] at hp
    cases hp
  | after rest hrest hids => exact hids

theorem Placed.lt_ids {value : ℕ} {p : ClientPoint D R P V} (h : Placed T st value p)
    (hp : p.allocating T st = true) : ∀ x ∈ p.ids, value < x := by
  cases h with
  | start => simp [ClientPoint.ids]
  | readId => simp [ClientPoint.ids]
  | panicked => simp [ClientPoint.ids]
  | before front rest hfront hrest hids => exact fun x hx => (hids x hx).1
  | after rest hrest hids =>
    rw [allocating_after _ hrest] at hp
    cases hp

theorem Placed.mono {value value' : ℕ} {p : ClientPoint D R P V} (h : Placed T st value p)
    (hp : p.allocating T st = false) (hle : value ≤ value') : Placed T st value' p := by
  cases h with
  | start => exact .start
  | readId => simp [ClientPoint.allocating] at hp
  | panicked => exact .panicked
  | before front rest hfront hrest hids =>
    rw [allocating_before] at hp
    cases hp
  | after rest hrest hids => exact .after rest hrest fun x hx => (hids x hx).trans hle

/-- What a command of a client does to the counter and to its ids. -/
structure Advanced (T : CaseTable) (st : RedisStore) (value value' : ℕ)
    (p p' : ClientPoint D R P V) : Prop where
  placed : Placed T st value' p'
  le : value ≤ value'
  unchanged : p.allocating T st = false ∨ p'.allocating T st = true → value' = value
  allocating : p'.allocating T st = true → p.allocating T st = true ∨ p.isStart = true
  ids : p'.ids = p.ids ∨ p.allocating T st = true ∧ ∀ x ∈ p'.ids, value < x

theorem placed_built {queueOpts : QueueOpts} {call : AddCall D} {id priorCounter : ℕ}
    {l : AddLoop D R P V}
    (h : RedisStore.addLoop T pairs st queueOpts call call.items
      ⟨id + 1, priorCounter + 1, false, [], []⟩ = .ok l) :
    Placed T st id
      (.sending l (Pipeline.queryAllBatched ⟨st.finalPipeline T l, true⟩)) := by
  have hl := RedisStore.addLoop_spec h
  rw [Pipeline.queryAllBatched_eq]
  apply Placed.before
  · intro c hc
    exact Cmd.increments_of_isIncr_eq_false (hl.pipeline (by simp) c hc) _
  · intro c hc
    split_ifs at hc
    · obtain rfl := List.mem_singleton.mp hc
      simpa [Cmd.increments] using (RedisStore.idKey_ne_pcKey T st).symm
    · simp at hc
  · intro x hx
    obtain ⟨job, hjob, hid⟩ := List.mem_filterMap.mp hx
    have hmem : some x ∈ l.jobs.map Job.id := List.mem_map.mpr ⟨job, hjob, hid⟩
    rw [hl.ids] at hmem
    have hcounter := hl.idCounter
    simp only [List.map_nil, List.nil_append, List.mem_map, List.mem_range'_1,
      Option.some.injEq, exists_eq_right] at hmem
    simp only at hcounter
    omega

theorem counter_exec (r : Server V (QueueStreamEvent R P)) {cmd : Cmd V (QueueStreamEvent R P)}
    (h : cmd.increments (st.idKey T) = false) :
    counter T st (r.execAll [cmd]) = counter T st r :=
  congrArg (·.getD 0) (r.get_exec_of_not_increments h)

theorem advance_spec {r r' : Server V (QueueStreamEvent R P)} {c : Client D R P V}
    {p' : ClientPoint D R P V} (h : advance T pairs st r c = some (r', p'))
    (hp : Placed T st (counter T st r) c.point) :
    Advanced T st (counter T st r) (counter T st r') c.point p' := by
  obtain ⟨queueOpts, call, p⟩ := c
  cases hp with
  | start =>
    obtain ⟨rfl, rfl⟩ := Prod.mk.inj (Option.some.inj h)
    exact ⟨.readId, le_rfl, fun _ => rfl, fun _ => Or.inr rfl, Or.inl rfl⟩
  | readId =>
    simp only [advance] at h
    split at h
    · obtain ⟨rfl, rfl⟩ := Prod.mk.inj (Option.some.inj h)
      exact ⟨.panicked, le_rfl, fun _ => rfl, fun _ => Or.inl rfl, Or.inl rfl⟩
    · next l hloop =>
      obtain ⟨rfl, rfl⟩ := Prod.mk.inj (Option.some.inj h)
      have hplaced := placed_built hloop
      have halloc : (ClientPoint.sending l (Pipeline.queryAllBatched
          ⟨st.finalPipeline T l, true⟩)).allocating T st = true := by
        rw [Pipeline.queryAllBatched_eq]
        exact allocating_before l l.pipeline _ _
      have hlt := hplaced.lt_ids halloc
      exact ⟨hplaced, le_rfl, fun _ => rfl, fun _ => Or.inl rfl, Or.inr ⟨rfl, hlt⟩⟩
  | panicked => simp [advance] at h
  | @before l front rest hfront hrest hids =>
    cases front with
    | nil =>
      -- the increment itself, after which the counter covers the ids
      obtain ⟨rfl, rfl⟩ := Prod.mk.inj (Option.some.inj h)
      have hvalue : counter T st (r.execAll [.incr (st.idKey T) (l.idCounter - 1)]) =
          counter T st r + (l.idCounter - 1) := by
        simp [counter, Server.execAll, Server.get_exec_incr]
      have hafter := allocating_after l hrest
      constructor
      · apply Placed.after rest hrest
        intro x hx
        have hle := (hids x hx).2
        rw [hvalue]
        omega
      · rw [hvalue]
        omega
      · rintro (hfree | halloc)
        · rw [allocating_before l [] rest] at hfree
          cases hfree
        · rw [hafter] at halloc
          cases halloc
      · intro _
        exact Or.inl (allocating_before l [] rest _)
      · exact Or.inl rfl
    | cons cmd front =>
      obtain ⟨rfl, rfl⟩ := Prod.mk.inj (Option.some.inj h)
      have hvalue := counter_exec r (hfront cmd List.mem_cons_self)
      have hfront' := fun c hc => hfront c (List.mem_cons_of_mem cmd hc)
      exact ⟨hvalue ▸ .before front rest hfront' hrest hids, hvalue.ge, fun _ => hvalue,
        fun _ => Or.inl (allocating_before l (cmd :: front) rest _), Or.inl rfl⟩
  | @after l rest hrest hids =>
    cases rest with
    | nil => simp [advance] at h
    | cons cmd rest =>
      obtain ⟨rfl, rfl⟩ := Prod.mk.inj (Option.some.inj h)
      have hvalue := counter_exec r (hrest cmd List.mem_cons_self)
      have hrest' := fun c hc => hrest c (List.mem_cons_of_mem cmd hc)
      constructor
      · exact hvalue ▸ .after rest hrest' hids
      · exact hvalue.ge
      · exact fun _ => hvalue
      · intro halloc
        rw [allocating_after l hrest'] at halloc
        cases halloc
      · exact Or.inl rfl

/-! ### Runs -/

structure Inv (T : CaseTable) (st : RedisStore) (σ : Clients D R P V) : Prop where
  alone : σ.clients.countP (fun c => c.point.allocating T st) ≤ 1
  placed : ∀ c ∈ σ.clients, Placed T st (counter T st σ.server) c.point
  disjoint : σ.DisjointIds

theorem init_inv (T : CaseTable) (st : RedisStore) (r : Server V (QueueStreamEvent R P))
    (calls : List (QueueOpts × AddCall D)) : Inv T st (init r calls) := by
  have hstart : ∀ c ∈ (init r calls).clients, c.point = .start := by
    intro c hc
    obtain ⟨call, -, rfl⟩ := List.mem_map.mp hc
    rfl
  constructor
  · have hnone : ∀ c ∈ (init r calls).clients, c.point.allocating T st = false := by
      intro c hc
      rw [hstart c hc]
      rfl
    rw [countP_eq_zero_of_forall hnone]
    omega
  · intro c hc
    rw [hstart c hc]
    exact .start
  · intro i j c d _ hc _
    rw [hstart c (List.mem_of_getElem? hc)]
    simp [ClientPoint.ids, List.Disjoint]

theorem Inv.not_allocating {σ : Clients D R P V} (h : Inv T st σ) {i j : ℕ}
    {c d : Client D R P V} (hij : j ≠ i) (hi : σ.clients[i]? = some c)
    (hj : σ.clients[j]? = some d) (hc : c.point.allocating T st = true) :
    d.point.allocating T st = false := by
  by_contra hd
  have htwo := two_le_countP (p := fun c => c.point.allocating T st) hij.symm hi hj hc
    (by simpa using hd)
  have hone := h.alone
  omega

theorem step_inv {σ τ : Clients D R P V} {i : ℕ} (h : Inv T st σ) (hguard : ReadsAlone T st σ i)
    (hstep : step T pairs st σ i = some τ) : Inv T st τ := by
  obtain ⟨c, hc, hmap⟩ := Option.bind_eq_some_iff.mp hstep
  obtain ⟨⟨r, p⟩, hadv, rfl⟩ := Option.map_eq_some_iff.mp hmap
  have hspec := advance_spec hadv (h.placed c (List.mem_of_getElem? hc))
  constructor
  · -- a client enters the window only at its first read, when there is no other one in it
    by_cases hp : p.allocating T st = true
    · rcases hspec.allocating hp with hold | hstart
      · rw [countP_set_eq hc (p := fun c => c.point.allocating T st) (by simp [hp, hold])]
        exact h.alone
      · have hzero := hguard (by simp [hc, hstart])
        have hset := countP_set_add hc { c with point := p } fun c => c.point.allocating T st
        simp only [hzero, hp, if_true] at hset
        change (σ.clients.set i { c with point := p }).countP _ ≤ 1
        omega
    · have hle := countP_set_le hc (b := { c with point := p })
        (p := fun c => c.point.allocating T st) fun halloc => absurd halloc hp
      exact hle.trans h.alone
  · intro d hd
    obtain ⟨j, hj⟩ := List.mem_iff_getElem?.mp hd
    rcases getElem?_set_cases hj with ⟨-, rfl⟩ | ⟨hne, hj⟩
    · exact hspec.placed
    · have hplaced := h.placed d (List.mem_of_getElem? hj)
      cases hcalloc : c.point.allocating T st with
      | true => exact hplaced.mono (h.not_allocating hne hc hj hcalloc) hspec.le
      | false => exact hspec.unchanged (Or.inl hcalloc) ▸ hplaced
  · have hmoved : ∀ (j : ℕ) (d : Client D R P V), j ≠ i → σ.clients[j]? = some d →
        List.Disjoint p.ids d.point.ids := by
      intro j d hne hj
      rcases hspec.ids with heq | ⟨halloc, hlt⟩
      · rw [heq]
        exact h.disjoint i j c d hne.symm hc hj
      · have hle := (h.placed d (List.mem_of_getElem? hj)).ids_le
          (h.not_allocating hne hc hj halloc)
        intro x hx hx'
        exact absurd (hlt x hx) (by have := hle x hx'; omega)
    intro j k d e hjk hj hk
    rcases getElem?_set_cases hj with ⟨rfl, rfl⟩ | ⟨hji, hj'⟩
    · rcases getElem?_set_cases hk with ⟨rfl, -⟩ | ⟨hki, hk'⟩
      · exact absurd rfl hjk
      · exact hmoved k e hki hk'
    · rcases getElem?_set_cases hk with ⟨rfl, rfl⟩ | ⟨-, hk'⟩
      · exact (hmoved j d hji hj').symm
      · exact h.disjoint j k d e hjk hj' hk'

end Clients

end Kiomq
