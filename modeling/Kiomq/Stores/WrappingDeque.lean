import Kiomq.Foundations.Runs
import Kiomq.Jobs.Schedule
import Kiomq.Stores.ConcurrentDeque

/-!
# The deque with counters of 64 bits

The two indices of a deque are counters of type `i64`, which wrap around. Pops and removals never
pull them back, and only `clear` resets them. As long as fewer than `2 ^ 63` values are pushed in
between, every index that is used is the one of the deque with unbounded indices, so that the two
agree and both are the list under the same operations. The tail counter starts at `1`: it wraps
already with the last of these pushes if all of them are made at the back.
-/

namespace Kiomq

open Foundations

variable {α : Type*}

structure WrappingDeque (α : Type*) where
  data : OrderedMap ℤ α
  headIdx : ℤ
  tailIdx : ℤ

namespace WrappingDeque

def new : WrappingDeque α := ⟨.empty, 0, 1⟩

def pushFront (d : WrappingDeque α) (value : α) : WrappingDeque α :=
  { data := d.data.insert d.headIdx value
    headIdx := wrapI64 (d.headIdx - 1)
    tailIdx := d.tailIdx }

def pushBack (d : WrappingDeque α) (value : α) : WrappingDeque α :=
  { data := d.data.insert d.tailIdx value
    headIdx := d.headIdx
    tailIdx := wrapI64 (d.tailIdx + 1) }

/-- Remove the key of an entry that was looked up. -/
def pop (d : WrappingDeque α) : Option (ℤ × α) → Option α × WrappingDeque α
  | none => (none, d)
  | some entry =>
    match d.data.get? entry.1 with
    | some value => (some value, { d with data := d.data.remove entry.1 })
    | none => (none, d)

def popFront (d : WrappingDeque α) : Option α × WrappingDeque α := d.pop d.data.front?

def popBack (d : WrappingDeque α) : Option α × WrappingDeque α := d.pop d.data.back?

def clear (_d : WrappingDeque α) : WrappingDeque α := ⟨.empty, 0, 1⟩

def removeWhere (d : WrappingDeque α) (chosen : ℕ → α → Bool) : WrappingDeque α :=
  { d with data := removeVisited chosen 0 d.data.entries d.data }

def values (d : WrappingDeque α) : List α := d.data.values

def len (d : WrappingDeque α) : ℕ := d.data.entries.length

/-! ### The deque with unbounded indices -/

/-- The same entries, with the indices wrapped. -/
def ofDeque (d : ConcurrentDeque α) : WrappingDeque α :=
  ⟨d.data, wrapI64 d.headIdx, wrapI64 d.tailIdx⟩

theorem new_eq_ofDeque : (new : WrappingDeque α) = ofDeque .new := rfl

theorem pushFront_ofDeque {d : ConcurrentDeque α} (hlo : -2 ^ 63 ≤ d.headIdx)
    (hhi : d.headIdx < 2 ^ 63) (value : α) :
    (ofDeque d).pushFront value = ofDeque (d.pushFront value) := by
  simp only [ofDeque, pushFront, wrapI64_of_fits hlo hhi]
  rfl

theorem pushBack_ofDeque {d : ConcurrentDeque α} (hlo : -2 ^ 63 ≤ d.tailIdx)
    (hhi : d.tailIdx < 2 ^ 63) (value : α) :
    (ofDeque d).pushBack value = ofDeque (d.pushBack value) := by
  simp only [ofDeque, pushBack, wrapI64_of_fits hlo hhi]
  rfl

theorem pop_ofDeque (d : ConcurrentDeque α) {entry : ℤ × α} (h : entry ∈ d.data.entries) :
    (ofDeque d).pop (some entry) = (some entry.2, ofDeque (d.removeKey entry.1)) := by
  have hget : (ofDeque d).data.get? entry.1 = some entry.2 :=
    (d.data.get?_eq_some_iff _ _).mpr h
  simp only [pop, hget]
  rfl

theorem popFront_ofDeque (d : ConcurrentDeque α) :
    (ofDeque d).popFront = (d.popFront.1, ofDeque d.popFront.2) := by
  unfold popFront ConcurrentDeque.popFront
  change (ofDeque d).pop d.data.front? = _
  cases h : d.data.front? with
  | none => rfl
  | some entry => exact pop_ofDeque d (List.mem_of_mem_head? h)

theorem popBack_ofDeque (d : ConcurrentDeque α) :
    (ofDeque d).popBack = (d.popBack.1, ofDeque d.popBack.2) := by
  unfold popBack ConcurrentDeque.popBack
  change (ofDeque d).pop d.data.back? = _
  cases h : d.data.back? with
  | none => rfl
  | some entry => exact pop_ofDeque d (List.mem_of_mem_getLast? h)

theorem removeWhere_ofDeque (d : ConcurrentDeque α) (chosen : ℕ → α → Bool) :
    (ofDeque d).removeWhere chosen = ofDeque (d.removeWhere chosen) := rfl

theorem len_ofDeque (d : ConcurrentDeque α) : (ofDeque d).len = d.values.length := by
  simp [len, ofDeque, ConcurrentDeque.values, OrderedMap.values]

end WrappingDeque

/-! ### The deque beside a list -/

inductive DequeOp (α : Type*)
  | pushFront (value : α)
  | pushBack (value : α)
  | popFront
  | popBack
  | clear
  | removeWhere (chosen : ℕ → α → Bool)

structure DequeRun (α : Type*) where
  deque : WrappingDeque α
  /-- The list under the same operations. -/
  reference : List α
  /-- History: the pushes at each end since the last `clear`. -/
  fronts : ℕ
  backs : ℕ

namespace DequeRun

def start : DequeRun α := ⟨.new, [], 0, 0⟩

def step (r : DequeRun α) : DequeOp α → Option (DequeRun α)
  | .pushFront value =>
    some ⟨r.deque.pushFront value, value :: r.reference, r.fronts + 1, r.backs⟩
  | .pushBack value =>
    some ⟨r.deque.pushBack value, r.reference ++ [value], r.fronts, r.backs + 1⟩
  | .popFront => some { r with deque := r.deque.popFront.2, reference := r.reference.tail }
  | .popBack => some { r with deque := r.deque.popBack.2, reference := r.reference.dropLast }
  | .clear => some ⟨r.deque.clear, [], 0, 0⟩
  | .removeWhere chosen =>
    some { r with
      deque := r.deque.removeWhere chosen
      reference := unchosen chosen 0 r.reference }

/-- Fewer than `2 ^ 63` values are pushed since the last `clear`. -/
def FewPushes (r : DequeRun α) : DequeOp α → Prop
  | .pushFront _ => r.fronts + r.backs + 1 < 2 ^ 63
  | .pushBack _ => r.fronts + r.backs + 1 < 2 ^ 63
  | _ => True

def KeysBetween (r : DequeRun α) : Prop :=
  ∀ e ∈ r.deque.data.entries, r.deque.headIdx < e.1 ∧ e.1 < r.deque.tailIdx

/-- The deque is the list, and its keys lie between the indices until the tail index wraps. -/
structure AsList (r : DequeRun α) : Prop where
  values : r.deque.values = r.reference
  len : r.deque.len = r.reference.length
  above : ∀ e ∈ r.deque.data.entries, r.deque.headIdx < e.1
  between : r.backs ≠ 2 ^ 63 - 1 → r.KeysBetween

/-- A pop returns the end of the list, and a push finds its index free. -/
def Answers (r : DequeRun α) : DequeOp α → Prop
  | .pushFront _ => r.deque.data.get? r.deque.headIdx = none
  | .pushBack _ => r.deque.data.get? r.deque.tailIdx = none
  | .popFront => r.deque.popFront.1 = r.reference.head?
  | .popBack => r.deque.popBack.1 = r.reference.getLast?
  | _ => True

instance (r : DequeRun α) : (op : DequeOp α) → Decidable (r.FewPushes op)
  | .pushFront _ => inferInstanceAs (Decidable (_ < _))
  | .pushBack _ => inferInstanceAs (Decidable (_ < _))
  | .popFront => isTrue trivial
  | .popBack => isTrue trivial
  | .clear => isTrue trivial
  | .removeWhere _ => isTrue trivial

/-- The deque is one with unbounded indices, which the numbers of pushes determine. -/
structure Inv (r : DequeRun α) : Prop where
  few : r.fronts + r.backs < 2 ^ 63
  wrapped : ∃ d : ConcurrentDeque α, r.deque = .ofDeque d ∧ d.values = r.reference ∧
    d.headIdx = -r.fronts ∧ d.tailIdx = r.backs + 1

theorem start_inv : (start : DequeRun α).Inv :=
  ⟨by norm_num [start], .new, WrappingDeque.new_eq_ofDeque, rfl, rfl, rfl⟩

theorem step_inv (r : DequeRun α) (op : DequeOp α) (t : DequeRun α) (h : r.Inv)
    (hfew : r.FewPushes op) (hstep : r.step op = some t) : t.Inv := by
  obtain ⟨hcount, d, hdeque, hvalues, hhead, htail⟩ := h
  cases op with
  | pushFront value =>
    obtain rfl := Option.some.inj hstep
    simp only [FewPushes] at hfew
    refine ⟨by dsimp only; omega, d.pushFront value, ?_, ?_, ?_, htail⟩
    · rw [hdeque, WrappingDeque.pushFront_ofDeque (by omega) (by omega)]
    · rw [ConcurrentDeque.values_pushFront, hvalues]
    · change d.headIdx - 1 = _
      push_cast
      omega
  | pushBack value =>
    obtain rfl := Option.some.inj hstep
    simp only [FewPushes] at hfew
    refine ⟨by dsimp only; omega, d.pushBack value, ?_, ?_, hhead, ?_⟩
    · rw [hdeque, WrappingDeque.pushBack_ofDeque (by omega) (by omega)]
    · rw [ConcurrentDeque.values_pushBack, hvalues]
    · change d.tailIdx + 1 = _
      push_cast
      omega
  | popFront =>
    obtain rfl := Option.some.inj hstep
    obtain ⟨hhead', htail'⟩ := d.indices_popFront
    refine ⟨hcount, d.popFront.2, ?_, ?_, hhead'.trans hhead, htail'.trans htail⟩
    · rw [hdeque, WrappingDeque.popFront_ofDeque]
    · rw [ConcurrentDeque.values_popFront, hvalues]
  | popBack =>
    obtain rfl := Option.some.inj hstep
    obtain ⟨hhead', htail'⟩ := d.indices_popBack
    refine ⟨hcount, d.popBack.2, ?_, ?_, hhead'.trans hhead, htail'.trans htail⟩
    · rw [hdeque, WrappingDeque.popBack_ofDeque]
    · rw [ConcurrentDeque.values_popBack, hvalues]
  | clear =>
    obtain rfl := Option.some.inj hstep
    exact start_inv
  | removeWhere chosen =>
    obtain rfl := Option.some.inj hstep
    refine ⟨hcount, d.removeWhere chosen, ?_, ?_, hhead, htail⟩
    · rw [hdeque, WrappingDeque.removeWhere_ofDeque]
    · rw [ConcurrentDeque.values_removeWhere, hvalues]

theorem Inv.indices {r : DequeRun α} (h : r.Inv) :
    r.deque.headIdx = -r.fronts ∧
      r.deque.tailIdx = if r.backs = 2 ^ 63 - 1 then -2 ^ 63 else (r.backs : ℤ) + 1 := by
  obtain ⟨hcount, d, hdeque, -, hhead, htail⟩ := h
  rw [hdeque]
  simp only [WrappingDeque.ofDeque, hhead, htail]
  constructor
  · exact wrapI64_of_fits (by omega) (by omega)
  · split_ifs with hlast
    · rw [hlast]
      decide
    · exact wrapI64_of_fits (by omega) (by omega)

theorem Inv.keys {r : DequeRun α} (h : r.Inv) {e : ℤ × α} (he : e ∈ r.deque.data.entries) :
    -(r.fronts : ℤ) < e.1 ∧ e.1 < r.backs + 1 := by
  obtain ⟨-, d, hdeque, -, hhead, htail⟩ := h
  rw [hdeque] at he
  rw [← hhead, ← htail]
  exact d.bounds e he

theorem Inv.asList {r : DequeRun α} (h : r.Inv) : r.AsList := by
  obtain ⟨hhead, htail⟩ := h.indices
  obtain ⟨-, d, hdeque, hvalues, -, -⟩ := id h
  refine ⟨?_, ?_, fun e he => ?_, fun hlast e he => ?_⟩
  · rw [hdeque, ← hvalues]
    rfl
  · rw [hdeque, WrappingDeque.len_ofDeque, hvalues]
  · rw [hhead]
    exact (h.keys he).1
  · rw [hhead, htail, if_neg hlast]
    exact h.keys he

theorem Inv.get?_eq_none {r : DequeRun α} (h : r.Inv) {key : ℤ}
    (hkey : key ≤ -r.fronts ∨ r.backs + 1 ≤ key) : r.deque.data.get? key = none := by
  rw [Option.eq_none_iff_forall_not_mem]
  intro value hvalue
  have hbounds := h.keys ((r.deque.data.get?_eq_some_iff key value).mp hvalue)
  dsimp only at hbounds
  omega

theorem Inv.answers {r : DequeRun α} (h : r.Inv) (op : DequeOp α) : r.Answers op := by
  obtain ⟨hhead, htail⟩ := h.indices
  have hcount := h.few
  obtain ⟨-, d, hdeque, hvalues, -, -⟩ := id h
  cases op with
  | pushFront value => exact h.get?_eq_none (Or.inl hhead.le)
  | pushBack value =>
    apply h.get?_eq_none
    rw [htail]
    split_ifs with hlast
    · left
      omega
    · exact Or.inr le_rfl
  | popFront => rw [Answers, hdeque, WrappingDeque.popFront_ofDeque, d.popFront_fst, hvalues]
  | popBack => rw [Answers, hdeque, WrappingDeque.popBack_ofDeque, d.popBack_fst, hvalues]
  | _ => trivial

/-- In every run with fewer than `2 ^ 63` pushes between two calls of `clear` the deque is the list
under the same operations: it holds its values in its order, its pops return the ends of the list,
and no push overwrites an entry. -/
theorem deque_as_list (ops : List (DequeOp α)) (h : Guarded step FewPushes start ops) :
    Always step AsList start ops ∧ Guarded step Answers start ops :=
  ⟨always_of_invariant step_inv (fun _ hr => hr.asList) start_inv h,
    guarded_of_guarded step_inv (fun _ op hr _ => hr.answers op) start_inv h⟩

/-- Pushes at both ends, a removal from the middle, and a drain from the other end. -/
def mixedOps : List (DequeOp ℕ) :=
  [.pushBack 1, .pushBack 2, .pushFront 0, .removeWhere fun i _ => i = 1, .popBack, .popBack,
    .popFront, .clear, .pushFront 5, .popBack]

theorem mixedOps_as_list :
    Guarded step FewPushes start mixedOps ∧ Always step AsList start mixedOps ∧
      Guarded step Answers start mixedOps :=
  ⟨by decide +kernel, deque_as_list mixedOps (by decide +kernel)⟩

theorem run_pushBacks (value : α) (n : ℕ) {r : DequeRun α} (h : r.fronts + r.backs + n < 2 ^ 63) :
    Guarded step FewPushes r (List.replicate n (.pushBack value)) ∧
      ∃ t, run step r (List.replicate n (.pushBack value)) = some t ∧ t.backs = r.backs + n ∧
        t.reference = r.reference ++ List.replicate n value := by
  induction n generalizing r with
  | zero => exact ⟨trivial, r, rfl, rfl, (List.append_nil _).symm⟩
  | succ n ih =>
    have hnext : r.fronts + (r.backs + 1) + n < 2 ^ 63 := by omega
    obtain ⟨hguarded, t, hrun, hbacks, hreference⟩ :=
      ih (r := ⟨r.deque.pushBack value, r.reference ++ [value], r.fronts, r.backs + 1⟩) hnext
    rw [List.replicate_succ]
    refine ⟨⟨?_, fun u hu => ?_⟩, t, run_cons.mpr ⟨_, rfl, hrun⟩, ?_, ?_⟩
    · simp only [FewPushes]
      omega
    · obtain rfl := Option.some.inj hu
      exact hguarded
    · exact hbacks.trans (Nat.succ_add_eq_add_succ ..)
    · rw [hreference, List.append_assoc, List.replicate_succ]
      rfl

/-- After the last push the tail index is the least number of 64 bits, and all keys are above
it. -/
theorem not_keysBetween_pushBacks (value : α) {n : ℕ} (hn : n = 2 ^ 63 - 1) :
    Guarded step FewPushes start (List.replicate n (.pushBack value)) ∧
      ¬ Always step KeysBetween start (List.replicate n (.pushBack value)) := by
  have hcount : (start : DequeRun α).fronts + (start : DequeRun α).backs + n < 2 ^ 63 := by
    simp only [start]
    omega
  obtain ⟨hguarded, t, hrun, hbacks, hreference⟩ := run_pushBacks value n hcount
  refine ⟨hguarded, fun h => ?_⟩
  have hbetween := h.of_run hrun
  have hinv : t.Inv := run_invariant step_inv start_inv hguarded hrun
  have hlast : t.backs = 2 ^ 63 - 1 := (hbacks.trans (Nat.zero_add n)).trans hn
  have hne : t.deque.data.entries ≠ [] := by
    intro hnil
    have hlen := hinv.asList.len
    rw [hreference, WrappingDeque.len, hnil, List.length_append, List.length_replicate] at hlen
    simp only [List.length_nil] at hlen
    omega
  obtain ⟨e, he⟩ := List.exists_mem_of_ne_nil _ hne
  have hbelow := (hbetween e he).2
  have habove := (hinv.keys he).1
  have hfew := hinv.few
  rw [hinv.indices.2, if_pos hlast] at hbelow
  omega

/-- With `2 ^ 63 - 1` pushes, all at the back, the keys do not stay between the indices. -/
theorem tail_wraps :
    Guarded step FewPushes (start : DequeRun Unit) (List.replicate (2 ^ 63 - 1) (.pushBack ())) ∧
      ¬ Always step KeysBetween (start : DequeRun Unit)
        (List.replicate (2 ^ 63 - 1) (.pushBack ())) :=
  not_keysBetween_pushBacks () rfl

end DequeRun

end Kiomq
