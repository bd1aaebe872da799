import Kiomq.Foundations.OrderedMap

/-!
# The index-keyed deque

A deque is an ordered map from integer indices to values together with the two
indices that the next pushes use. Each of them lies outside of the stored keys, on
its own side; this is a field of the structure. So a push never overwrites an
entry, and the values in key order behave as a list: `pushFront` is `cons`,
`pushBack` appends and the pops drop one end.
-/

namespace Kiomq

open Foundations

section Visits

variable {κ α : Type*}

/-- The elements of a list that are not chosen, by their position and themselves. -/
def unchosen (chosen : ℕ → α → Bool) : ℕ → List α → List α
  | _, [] => []
  | i, x :: rest =>
    if chosen i x then unchosen chosen (i + 1) rest else x :: unchosen chosen (i + 1) rest

/-- The loop `iter().filter(..).for_each(|entry| entry.remove())`, which comes to the entries in
their order. -/
def removeVisited [LinearOrder κ] (chosen : ℕ → α → Bool) :
    ℕ → List (κ × α) → OrderedMap κ α → OrderedMap κ α
  | _, [], data => data
  | i, e :: rest, data =>
    removeVisited chosen (i + 1) rest (if chosen i e.2 then data.remove e.1 else data)

theorem unchosen_sublist (chosen : ℕ → α → Bool) (i : ℕ) (l : List α) :
    (unchosen chosen i l).Sublist l := by
  induction l generalizing i with
  | nil => exact List.Sublist.refl _
  | cons x rest ih =>
    unfold unchosen
    split_ifs
    · exact (ih (i + 1)).cons x
    · exact (ih (i + 1)).cons_cons x

theorem unchosen_eq_filter (chosen : α → Bool) (i : ℕ) (l : List α) :
    unchosen (fun _ => chosen) i l = l.filter fun x => !chosen x := by
  induction l generalizing i with
  | nil => rfl
  | cons x rest ih =>
    unfold unchosen
    split_ifs with h
    · rw [ih, List.filter_cons_of_neg (by simp [h])]
    · rw [ih, List.filter_cons_of_pos (by simp [h])]

theorem map_unchosen {β : Type*} (f : α → β) (chosen : ℕ → β → Bool) (i : ℕ) (l : List α) :
    (unchosen (fun j x => chosen j (f x)) i l).map f = unchosen chosen i (l.map f) := by
  induction l generalizing i with
  | nil => rfl
  | cons x rest ih =>
    simp only [unchosen, List.map_cons]
    split_ifs
    · exact ih (i + 1)
    · rw [List.map_cons, ih]

/-- The loop leaves what it has passed as it is, and of what is ahead the entries that are not
chosen. -/
theorem entries_removeVisited [LinearOrder κ] (chosen : ℕ → α → Bool) (i : ℕ)
    {passed ahead : List (κ × α)} {data : OrderedMap κ α} (h : data.entries = passed ++ ahead) :
    (removeVisited chosen i ahead data).entries =
      passed ++ unchosen (fun j e => chosen j e.2) i ahead := by
  induction ahead generalizing i passed data with
  | nil => exact h
  | cons e rest ih =>
    unfold removeVisited unchosen
    split_ifs
    · exact ih (i + 1) (data.remove_entries_middle h)
    · rw [ih (i + 1) (h.trans (List.append_cons ..)), ← List.append_cons]

end Visits

structure ConcurrentDeque (α : Type*) where
  data : OrderedMap ℤ α
  headIdx : ℤ
  tailIdx : ℤ
  head_lt_tail : headIdx < tailIdx
  bounds : ∀ e ∈ data.entries, headIdx < e.1 ∧ e.1 < tailIdx

namespace ConcurrentDeque

variable {α : Type*}

/-- The first pushes use the indices `0` and `1`. -/
def new : ConcurrentDeque α :=
  { data := .empty, headIdx := 0, tailIdx := 1, head_lt_tail := by decide
    bounds := by simp }

def pushFront (d : ConcurrentDeque α) (value : α) : ConcurrentDeque α :=
  { data := d.data.insert d.headIdx value
    headIdx := d.headIdx - 1
    tailIdx := d.tailIdx
    head_lt_tail := by have := d.head_lt_tail; omega
    bounds := by
      intro e he
      have ht := d.head_lt_tail
      rcases (d.data.mem_insert _ _ _).mp he with rfl | ⟨he, -⟩
      · exact ⟨by simp, ht⟩
      · have := d.bounds e he
        omega }

def pushBack (d : ConcurrentDeque α) (value : α) : ConcurrentDeque α :=
  { data := d.data.insert d.tailIdx value
    headIdx := d.headIdx
    tailIdx := d.tailIdx + 1
    head_lt_tail := by have := d.head_lt_tail; omega
    bounds := by
      intro e he
      have ht := d.head_lt_tail
      rcases (d.data.mem_insert _ _ _).mp he with rfl | ⟨he, -⟩
      · exact ⟨ht, by simp⟩
      · have := d.bounds e he
        omega }

/-- Keep the entries that satisfy `p`; the indices stay where they are. -/
def filter (d : ConcurrentDeque α) (p : ℤ × α → Bool) : ConcurrentDeque α :=
  { d with
    data := d.data.filter p
    bounds := fun e he => d.bounds e (List.mem_of_mem_filter he) }

def removeKey (d : ConcurrentDeque α) (k : ℤ) : ConcurrentDeque α := d.filter fun e => e.1 ≠ k

/-- Remove arbitrary entries through the iterator. -/
def removeWhere (d : ConcurrentDeque α) (chosen : ℕ → α → Bool) : ConcurrentDeque α :=
  { d with
    data := removeVisited chosen 0 d.data.entries d.data
    bounds := by
      intro e he
      rw [entries_removeVisited chosen 0 (List.nil_append _).symm, List.nil_append] at he
      exact d.bounds e ((unchosen_sublist _ 0 _).subset he) }

/-- The value with the least index, and the deque without it. -/
def popFront (d : ConcurrentDeque α) : Option α × ConcurrentDeque α :=
  match d.data.front? with
  | none => (none, d)
  | some e => (some e.2, d.removeKey e.1)

/-- The value with the greatest index, and the deque without it. -/
def popBack (d : ConcurrentDeque α) : Option α × ConcurrentDeque α :=
  match d.data.back? with
  | none => (none, d)
  | some e => (some e.2, d.removeKey e.1)

def clear (_d : ConcurrentDeque α) : ConcurrentDeque α := new

def values (d : ConcurrentDeque α) : List α := d.data.values

def len (d : ConcurrentDeque α) : ℕ := d.data.entries.length

def containsValue [DecidableEq α] (d : ConcurrentDeque α) (value : α) : Bool :=
  d.data.entries.any fun e => e.2 = value

@[simp] theorem values_pushFront (d : ConcurrentDeque α) (value : α) :
    (d.pushFront value).values = value :: d.values := by
  have h := d.data.insert_entries_front d.headIdx value fun e he => (d.bounds e he).1
  simp [values, OrderedMap.values, pushFront, h]

@[simp] theorem values_pushBack (d : ConcurrentDeque α) (value : α) :
    (d.pushBack value).values = d.values ++ [value] := by
  have h := d.data.insert_entries_back d.tailIdx value fun e he => (d.bounds e he).2
  simp [values, OrderedMap.values, pushBack, h]

theorem popFront_fst (d : ConcurrentDeque α) : d.popFront.1 = d.values.head? := by
  unfold popFront values OrderedMap.values OrderedMap.front?
  rw [List.head?_map]
  cases d.data.entries.head? <;> rfl

theorem popBack_fst (d : ConcurrentDeque α) : d.popBack.1 = d.values.getLast? := by
  unfold popBack values OrderedMap.values OrderedMap.back?
  rw [List.getLast?_map]
  cases d.data.entries.getLast? <;> rfl

theorem values_popFront (d : ConcurrentDeque α) : d.popFront.2.values = d.values.tail := by
  unfold popFront
  cases h : d.data.front? with
  | none =>
    have hnil : d.data.entries = [] := List.head?_eq_none_iff.mp h
    simp [values, OrderedMap.values, hnil]
  | some e =>
    have hr := d.data.remove_entries_front h
    change (d.data.remove e.1).values = _
    simp [values, OrderedMap.values, hr, List.map_tail]

theorem values_popBack (d : ConcurrentDeque α) : d.popBack.2.values = d.values.dropLast := by
  unfold popBack
  cases h : d.data.back? with
  | none =>
    have hnil : d.data.entries = [] := List.getLast?_eq_none_iff.mp h
    simp [values, OrderedMap.values, hnil]
  | some e =>
    have hr := d.data.remove_entries_back h
    change (d.data.remove e.1).values = _
    simp [values, OrderedMap.values, hr, List.map_dropLast]

/-- Pops do not pull the indices back. -/
theorem indices_popFront (d : ConcurrentDeque α) :
    d.popFront.2.headIdx = d.headIdx ∧ d.popFront.2.tailIdx = d.tailIdx := by
  unfold popFront
  cases d.data.front? <;> exact ⟨rfl, rfl⟩

theorem indices_popBack (d : ConcurrentDeque α) :
    d.popBack.2.headIdx = d.headIdx ∧ d.popBack.2.tailIdx = d.tailIdx := by
  unfold popBack
  cases d.data.back? <;> exact ⟨rfl, rfl⟩

theorem values_removeWhere (d : ConcurrentDeque α) (chosen : ℕ → α → Bool) :
    (d.removeWhere chosen).values = unchosen chosen 0 d.values := by
  have hentries := entries_removeVisited chosen 0 (List.nil_append d.data.entries).symm
  rw [List.nil_append] at hentries
  simp only [values, OrderedMap.values, removeWhere, hentries, map_unchosen]

theorem removeWhere_value (d : ConcurrentDeque α) (chosen : α → Bool) :
    (d.removeWhere fun _ => chosen) = d.filter fun e => !chosen e.2 := by
  have hentries := entries_removeVisited (fun _ => chosen) 0 (List.nil_append d.data.entries).symm
  rw [List.nil_append, unchosen_eq_filter] at hentries
  have hdata : removeVisited (fun _ => chosen) 0 d.data.entries d.data =
      d.data.filter fun e => !chosen e.2 := OrderedMap.ext hentries
  unfold removeWhere filter
  simp only [hdata]

theorem containsValue_iff [DecidableEq α] (d : ConcurrentDeque α) (value : α) :
    d.containsValue value = true ↔ value ∈ d.values := by
  simp [containsValue, values, OrderedMap.values]

theorem count_values_filter_ne [DecidableEq α] (d : ConcurrentDeque α) (x y : α) :
    (d.filter fun e => e.2 ≠ x).values.count y = if y = x then 0 else d.values.count y :=
  d.data.count_values_filter_ne x y

theorem count_values_popBack [DecidableEq α] (d : ConcurrentDeque α) {x : α}
    (h : d.popBack.1 = some x) (y : α) :
    d.popBack.2.values.count y + (if x = y then 1 else 0) = d.values.count y := by
  rw [popBack_fst] at h
  have hv : d.values = d.values.dropLast ++ [x] := by
    obtain ⟨hne, hl⟩ := List.mem_getLast?_eq_getLast h
    rw [hl, List.dropLast_append_getLast]
  rw [values_popBack]
  conv_rhs => rw [hv, List.count_append, List.count_singleton]
  simp only [beq_iff_eq]

/-- The loop `while let Some(entry) = src.pop_front() { dst.push_back(entry) }`; the
number of entries bounds the number of its iterations. -/
def drainInto : ℕ → ConcurrentDeque α → ConcurrentDeque α → ConcurrentDeque α × ConcurrentDeque α
  | 0, src, dst => (src, dst)
  | fuel + 1, src, dst =>
    match src.popFront with
    | (none, src) => (src, dst)
    | (some entry, src) => drainInto fuel src (dst.pushBack entry)

theorem drainInto_values (fuel : ℕ) (src dst : ConcurrentDeque α) (h : src.values.length ≤ fuel) :
    (drainInto fuel src dst).1.values = [] ∧
      (drainInto fuel src dst).2.values = dst.values ++ src.values := by
  induction fuel generalizing src dst with
  | zero =>
    have hnil : src.values = [] := List.length_eq_zero_iff.mp (Nat.le_zero.mp h)
    simp [drainInto, hnil]
  | succ fuel ih =>
    have hfst := src.popFront_fst
    have hsnd := src.values_popFront
    unfold drainInto
    cases hp : src.popFront with
    | mk o rest =>
      rw [hp] at hfst hsnd
      cases hv : src.values with
      | nil =>
        obtain rfl : o = none := by simpa [hv] using hfst
        simpa [hv] using hsnd
      | cons x xs =>
        obtain rfl : o = some x := by simpa [hv] using hfst
        have hrest : rest.values = xs := by simpa [hv] using hsnd
        have hlen : rest.values.length ≤ fuel := by
          rw [hv, List.length_cons] at h
          rw [hrest]
          omega
        have hih := ih rest (dst.pushBack x) hlen
        simp only [hih, hrest, values_pushBack, List.append_assoc, List.cons_append,
          List.nil_append, and_self]

theorem drainInto_len (src dst : ConcurrentDeque α) :
    (drainInto src.len src dst).1.values = [] ∧
      (drainInto src.len src dst).2.values = dst.values ++ src.values := by
  apply drainInto_values
  simp [values, OrderedMap.values, len]

end ConcurrentDeque

end Kiomq
