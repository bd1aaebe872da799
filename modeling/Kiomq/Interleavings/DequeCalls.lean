import Kiomq.Foundations.Parties
import Kiomq.Foundations.Runs
import Kiomq.Stores.ConcurrentDeque

/-!
# Interleaved calls on the deque

Any number of threads push to and pop from one deque. A push takes an index from one of
the two counters and then inserts under it; a pop looks up the first or last key and then
removes it. Each of these is one atomic step, and between the two steps of a call the
other threads can do anything. Indices are taken once, so an entry is never overwritten,
and the removal of a key hands its value to one thread.
-/

namespace Kiomq

open Foundations

variable {α : Type*}

inductive DequeEnd
  | front
  | back
  deriving DecidableEq, Repr

/-- Where a thread is: outside of a call, in a push that has taken its index, or in a pop
that has seen a key. -/
inductive DequeThread (α : Type*)
  | idle
  | pushing (key : ℤ) (value : α)
  | popping (key : ℤ)

/-- The entry that a thread has taken an index for but not inserted. -/
def DequeThread.pending? : DequeThread α → Option (ℤ × α)
  | pushing key value => some (key, value)
  | _ => none

structure DequeCalls (α : Type*) where
  data : OrderedMap ℤ α
  headIdx : ℤ
  tailIdx : ℤ
  threads : List (DequeThread α)
  /-- History: the pushed values and those returned by a pop, with their index. -/
  pushed : List (ℤ × α)
  popped : List (ℤ × α)

inductive DequeStep (α : Type*)
  | takeIndex (thread : ℕ) (side : DequeEnd) (value : α)
  | insert (thread : ℕ)
  | look (thread : ℕ) (side : DequeEnd)
  | remove (thread : ℕ)

namespace DequeCalls

def init (threads : ℕ) : DequeCalls α :=
  { data := .empty, headIdx := 0, tailIdx := 1, threads := List.replicate threads .idle
    pushed := [], popped := [] }

/-- `fetch_sub` on the head index or `fetch_add` on the tail index. -/
def fetchIndex (s : DequeCalls α) : DequeEnd → ℤ × DequeCalls α
  | .front => (s.headIdx, { s with headIdx := s.headIdx - 1 })
  | .back => (s.tailIdx, { s with tailIdx := s.tailIdx + 1 })

def entryAt (s : DequeCalls α) : DequeEnd → Option (ℤ × α)
  | .front => s.data.front?
  | .back => s.data.back?

def setThread (s : DequeCalls α) (i : ℕ) (thread : DequeThread α) : DequeCalls α :=
  { s with threads := s.threads.set i thread }

def step (s : DequeCalls α) : DequeStep α → Option (DequeCalls α)
  | .takeIndex i side value =>
    match s.threads[i]? with
    | some .idle =>
      let fetched := s.fetchIndex side
      some ({ fetched.2 with pushed := s.pushed ++ [(fetched.1, value)] }.setThread i
        (.pushing fetched.1 value))
    | _ => none
  | .insert i =>
    match s.threads[i]? with
    | some (.pushing key value) =>
      some ({ s with data := s.data.insert key value }.setThread i .idle)
    | _ => none
  | .look i side =>
    match s.threads[i]? with
    | some .idle =>
      match s.entryAt side with
      | some entry => some (s.setThread i (.popping entry.1))
      | none => some s
    | _ => none
  | .remove i =>
    match s.threads[i]? with
    | some (.popping key) =>
      match s.data.get? key with
      | some value =>
        some ({ s with data := s.data.remove key, popped := s.popped ++ [(key, value)] }.setThread
          i .idle)
      | none => some (s.setThread i .idle)
    | _ => none

/-- The entries between the two steps of their push. -/
def pending (threads : List (DequeThread α)) : List (ℤ × α) :=
  threads.filterMap DequeThread.pending?

def Quiet (s : DequeCalls α) : Prop := ∀ thread ∈ s.threads, thread = .idle

/-- Each push has its own index, a pop returns a push that no other pop has returned, and
when no call is under way the pushed values are those popped and those stored. -/
def Conserves (s : DequeCalls α) : Prop :=
  (s.pushed.map Prod.fst).Nodup ∧ (s.popped.map Prod.fst).Nodup ∧
    (∀ e ∈ s.popped, e ∈ s.pushed) ∧
    (s.Quiet → (s.pushed.map Prod.snd).Perm (s.popped.map Prod.snd ++ s.data.values))

structure Inv (s : DequeCalls α) : Prop where
  bounds : s.headIdx < s.tailIdx
  taken : ∀ e ∈ s.pushed, s.headIdx < e.1 ∧ e.1 < s.tailIdx
  indices : (s.pushed.map Prod.fst).Nodup
  places : (s.pushed : Multiset (ℤ × α)) = s.popped + s.data.entries + pending s.threads

theorem pending_set_of_none {threads : List (DequeThread α)} {i : ℕ} {thread : DequeThread α}
    (h : threads[i]? = some thread) (hnone : thread.pending? = none) (next : DequeThread α) :
    (pending (threads.set i next) : Multiset (ℤ × α)) =
      pending threads + next.pending?.toList := by
  obtain ⟨rest, hold, hnew⟩ := perm_set h next
  have hold' := hold.filterMap DequeThread.pending?
  have hnew' := hnew.filterMap DequeThread.pending?
  rw [List.filterMap_cons_none hnone] at hold'
  rw [Multiset.coe_add, Multiset.coe_eq_coe]
  cases hp : next.pending? with
  | none =>
    rw [List.filterMap_cons_none hp] at hnew'
    simpa [pending] using hnew'.trans hold'.symm
  | some e =>
    rw [List.filterMap_cons_some hp] at hnew'
    exact (hnew'.trans (hold'.symm.cons e)).trans (List.perm_append_singleton e _).symm

theorem pending_of_pushing {threads : List (DequeThread α)} {i : ℕ} {key : ℤ} {value : α}
    (h : threads[i]? = some (.pushing key value)) :
    (pending threads : Multiset (ℤ × α)) = {(key, value)} + pending (threads.set i .idle) := by
  obtain ⟨rest, hold, hnew⟩ := perm_set h .idle
  have hold' := hold.filterMap DequeThread.pending?
  have hnew' := hnew.filterMap DequeThread.pending?
  rw [Multiset.singleton_add, Multiset.cons_coe, Multiset.coe_eq_coe]
  exact hold'.trans (hnew'.symm.cons (key, value))

theorem pending_of_idle {threads : List (DequeThread α)} (h : ∀ thread ∈ threads, thread = .idle) :
    pending threads = [] := by
  simp only [pending, List.filterMap_eq_nil_iff]
  intro thread hthread
  rw [h thread hthread]
  rfl

theorem Inv.perm {s : DequeCalls α} (h : s.Inv) :
    s.pushed.Perm (s.popped ++ s.data.entries ++ pending s.threads) := by
  simpa only [Multiset.coe_add, Multiset.coe_eq_coe] using h.places

theorem Inv.get?_of_pending {s : DequeCalls α} (h : s.Inv) {e : ℤ × α}
    (he : e ∈ pending s.threads) : s.data.get? e.1 = none := by
  refine Option.eq_none_iff_forall_ne_some.mpr fun value hvalue => ?_
  have hmem := (s.data.get?_eq_some_iff e.1 value).mp hvalue
  have hnodup := (h.perm.map Prod.fst).nodup_iff.mp h.indices
  rw [List.map_append, List.nodup_append] at hnodup
  exact hnodup.2.2 e.1 (List.mem_map.mpr ⟨(e.1, value), by simp [hmem], rfl⟩) e.1
    (List.mem_map_of_mem he) rfl

theorem Inv.takeIndex {s : DequeCalls α} (h : s.Inv) {i : ℕ} (hi : s.threads[i]? = some .idle)
    (side : DequeEnd) (value : α) :
    Inv ({ (s.fetchIndex side).2 with
      pushed := s.pushed ++ [((s.fetchIndex side).1, value)] }.setThread i
        (.pushing (s.fetchIndex side).1 value)) := by
  have hb := h.bounds
  have hfresh : (s.fetchIndex side).1 ∉ s.pushed.map Prod.fst := by
    intro hmem
    obtain ⟨e, he, heq⟩ := List.mem_map.mp hmem
    have := h.taken e he
    cases side <;> simp only [fetchIndex] at heq <;> omega
  have hplaces : (s.pushed ++ [((s.fetchIndex side).1, value)] : Multiset (ℤ × α)) =
      s.popped + s.data.entries +
        pending (s.threads.set i (.pushing (s.fetchIndex side).1 value)) := by
    rw [pending_set_of_none hi rfl, ← add_assoc, ← h.places]
    rfl
  constructor
  · cases side <;> simp only [setThread, fetchIndex] <;> omega
  · intro e he
    rcases List.mem_append.mp he with he | he
    · have := h.taken e he
      cases side <;> simp only [setThread, fetchIndex] <;> omega
    · obtain rfl := List.mem_singleton.mp he
      cases side <;> simp only [setThread, fetchIndex] <;> omega
  · simp only [setThread, List.map_append, List.map_cons, List.map_nil]
    rw [List.nodup_append]
    refine ⟨h.indices, List.nodup_singleton _, ?_⟩
    rintro x hx y hy rfl
    exact hfresh (List.mem_singleton.mp hy ▸ hx)
  · cases side <;> exact hplaces

theorem Inv.insert {s : DequeCalls α} (h : s.Inv) {i : ℕ} {key : ℤ} {value : α}
    (hi : s.threads[i]? = some (.pushing key value)) :
    Inv ({ s with data := s.data.insert key value }.setThread i .idle) := by
  have hmem : (key, value) ∈ pending s.threads := by
    rw [← Multiset.mem_coe, pending_of_pushing hi]
    simp
  have hdata := s.data.insert_perm value (h.get?_of_pending hmem)
  refine ⟨h.bounds, h.taken, h.indices, ?_⟩
  simp only [setThread]
  rw [h.places, pending_of_pushing hi, Multiset.coe_eq_coe.mpr hdata, ← Multiset.cons_coe,
    ← Multiset.singleton_add]
  abel

theorem Inv.setThread {s : DequeCalls α} (h : s.Inv) {i : ℕ} {thread next : DequeThread α}
    (hi : s.threads[i]? = some thread) (hthread : thread.pending? = none)
    (hnext : next.pending? = none) : Inv (s.setThread i next) := by
  refine ⟨h.bounds, h.taken, h.indices, ?_⟩
  simp only [DequeCalls.setThread]
  rw [pending_set_of_none hi hthread, hnext, Option.toList_none, Multiset.coe_nil, add_zero]
  exact h.places

theorem Inv.remove {s : DequeCalls α} (h : s.Inv) {key : ℤ} {value : α}
    (hkey : s.data.get? key = some value) :
    Inv { s with data := s.data.remove key, popped := s.popped ++ [(key, value)] } := by
  refine ⟨h.bounds, h.taken, h.indices, ?_⟩
  have hplaces := h.places
  rw [Multiset.coe_eq_coe.mpr (s.data.remove_perm hkey), ← Multiset.cons_coe,
    ← Multiset.singleton_add] at hplaces
  rw [hplaces, ← Multiset.coe_add, Multiset.coe_singleton]
  abel

theorem step_inv (s : DequeCalls α) (a : DequeStep α) (t : DequeCalls α) (h : s.Inv)
    (hstep : s.step a = some t) : t.Inv := by
  cases a with
  | takeIndex i side value =>
    simp only [step] at hstep
    split at hstep
    · rename_i hi
      obtain rfl := Option.some.inj hstep
      exact h.takeIndex hi side value
    · simp at hstep
  | insert i =>
    simp only [step] at hstep
    split at hstep
    · rename_i key value hi
      obtain rfl := Option.some.inj hstep
      exact h.insert hi
    · simp at hstep
  | look i side =>
    simp only [step] at hstep
    split at hstep
    · rename_i hi
      split at hstep
      · obtain rfl := Option.some.inj hstep
        exact h.setThread hi rfl rfl
      · obtain rfl := Option.some.inj hstep
        exact h
    · simp at hstep
  | remove i =>
    simp only [step] at hstep
    split at hstep
    · rename_i key hi
      split at hstep
      · rename_i value hkey
        obtain rfl := Option.some.inj hstep
        exact (h.remove hkey).setThread hi rfl rfl
      · obtain rfl := Option.some.inj hstep
        exact h.setThread hi rfl rfl
    · simp at hstep

theorem init_inv (threads : ℕ) : (init threads : DequeCalls α).Inv := by
  constructor
  · exact Int.zero_lt_one
  · simp [init]
  · simp [init]
  · have hnone : pending (init threads : DequeCalls α).threads = [] :=
      pending_of_idle fun _ h => List.eq_of_mem_replicate h
    rw [hnone]
    simp [init]

theorem Inv.conserves {s : DequeCalls α} (h : s.Inv) : s.Conserves := by
  have hperm := h.perm
  have hnodup := (hperm.map Prod.fst).nodup_iff.mp h.indices
  refine ⟨h.indices, ?_, ?_, ?_⟩
  · rw [List.append_assoc, List.map_append, List.nodup_append] at hnodup
    exact hnodup.1
  · intro e he
    exact hperm.mem_iff.mpr (by simp [he])
  · intro hquiet
    rw [pending_of_idle hquiet, List.append_nil] at hperm
    simpa only [OrderedMap.values, List.map_append] using hperm.map Prod.snd

/-- Whatever the threads do, no push is returned by two pops, and no value is lost. -/
theorem conserves_of_run (threads : ℕ) (steps : List (DequeStep α)) :
    Always step Conserves (init threads : DequeCalls α) steps :=
  always_of_invariant_all step_inv (fun _ h => h.conserves) (init_inv threads) steps

/-! ### One thread at a time -/

/-- The calls of one thread on a deque. -/
def ofDeque (d : ConcurrentDeque α) : DequeCalls α :=
  { data := d.data, headIdx := d.headIdx, tailIdx := d.tailIdx, threads := [.idle]
    pushed := [], popped := [] }

def contents (s : DequeCalls α) : OrderedMap ℤ α × ℤ × ℤ := (s.data, s.headIdx, s.tailIdx)

/-- The two steps of a push, with nothing in between, are the push of the deque. -/
theorem run_push (d : ConcurrentDeque α) (side : DequeEnd) (value : α) :
    (run step (ofDeque d) [.takeIndex 0 side value, .insert 0]).map contents =
      some (ofDeque (match side with
        | .front => d.pushFront value
        | .back => d.pushBack value)).contents := by
  cases side <;> rfl

/-- What the call of a pop returns and leaves behind. -/
def popAt (d : ConcurrentDeque α) : DequeEnd → Option α × ConcurrentDeque α
  | .front => d.popFront
  | .back => d.popBack

theorem run_pop (d : ConcurrentDeque α) (side : DequeEnd) {e : ℤ × α}
    (he : (ofDeque d).entryAt side = some e) :
    (run step (ofDeque d) [.look 0 side, .remove 0]).map
        (fun s => (s.popped.map Prod.snd, s.contents)) =
      some ((popAt d side).1.toList, (ofDeque (popAt d side).2).contents) := by
  have hmem : e ∈ d.data.entries := by
    cases side with
    | front => exact List.mem_of_mem_head? he
    | back => exact List.mem_of_mem_getLast? he
  have hget := (d.data.get?_eq_some_iff e.1 e.2).mpr hmem
  have hpop : popAt d side = (some e.2, d.removeKey e.1) := by
    cases side with
    | front =>
      have hfront : d.data.front? = some e := he
      simp [popAt, ConcurrentDeque.popFront, hfront]
    | back =>
      have hback : d.data.back? = some e := he
      simp [popAt, ConcurrentDeque.popBack, hback]
  have hlook : (ofDeque d).step (.look 0 side) = some ((ofDeque d).setThread 0 (.popping e.1)) := by
    simp only [step, he]
    rfl
  have hremove : ((ofDeque d).setThread 0 (.popping e.1)).step (.remove 0) =
      some { ofDeque (d.removeKey e.1) with popped := [e] } := by
    simp only [step, setThread, ofDeque, List.set_cons_zero, List.getElem?_cons_zero, hget]
    rfl
  simp only [run, hlook, hremove, hpop, Option.bind_some, Option.map_some]
  rfl

theorem look_empty (d : ConcurrentDeque α) (side : DequeEnd)
    (he : (ofDeque d).entryAt side = none) :
    (ofDeque d).step (.look 0 side) = some (ofDeque d) ∧ popAt d side = (none, d) := by
  constructor
  · simp only [step, he]
    rfl
  · cases side with
    | front =>
      have hfront : d.data.front? = none := he
      simp [popAt, ConcurrentDeque.popFront, hfront]
    | back =>
      have hback : d.data.back? = none := he
      simp [popAt, ConcurrentDeque.popBack, hback]

end DequeCalls

end Kiomq
