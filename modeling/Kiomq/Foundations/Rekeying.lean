import Kiomq.Foundations.OrderedMap
import Mathlib.Order.Monotone.Defs

/-!
# Maps under other keys

A function that keeps the strict order of the keys of a domain carries an ordered map over to one
with the new keys: the entries are the same and in the same order. All operations of the two maps
correspond, for keys of the domain.
-/

namespace Kiomq.Foundations

namespace OrderedMap

variable {κ κ' ν : Type*} [LinearOrder κ] [LinearOrder κ']

/-- The keys of `m` are in `s`, and `m'` has the entries of `m` under the keys that `f` gives. -/
structure Rekeyed (f : κ → κ') (s : Set κ) (m : OrderedMap κ ν) (m' : OrderedMap κ' ν) :
    Prop where
  keys : ∀ e ∈ m.entries, e.1 ∈ s
  entries : m'.entries = m.entries.map fun e => (f e.1, e.2)

namespace Rekeyed

variable {f : κ → κ'} {s : Set κ} {m : OrderedMap κ ν} {m' : OrderedMap κ' ν}

theorem empty : Rekeyed f s (OrderedMap.empty : OrderedMap κ ν) .empty := ⟨nofun, rfl⟩

theorem filter (h : Rekeyed f s m m') {p : κ × ν → Bool} {p' : κ' × ν → Bool}
    (hp : ∀ e ∈ m.entries, p' (f e.1, e.2) = p e) : Rekeyed f s (m.filter p) (m'.filter p') := by
  refine ⟨fun e he => h.keys e (List.mem_of_mem_filter he), ?_⟩
  rw [entries_filter, entries_filter, h.entries, List.filter_map]
  exact congrArg (List.map _) (List.filter_congr hp)

variable (hf : StrictMonoOn f s)
include hf

theorem get? (h : Rekeyed f s m m') {k : κ} (hk : k ∈ s) : m'.get? (f k) = m.get? k := by
  ext v
  rw [get?_eq_some_iff, get?_eq_some_iff, h.entries, List.mem_map]
  constructor
  · rintro ⟨e, he, heq⟩
    obtain ⟨hkey, rfl⟩ := Prod.mk.inj heq
    obtain rfl := hf.injOn (h.keys e he) hk hkey
    exact he
  · intro he
    exact ⟨(k, v), he, rfl⟩

theorem remove (h : Rekeyed f s m m') {k : κ} (hk : k ∈ s) :
    Rekeyed f s (m.remove k) (m'.remove (f k)) := by
  refine h.filter fun e he => ?_
  simp only [ne_eq, decide_not, hf.injOn.eq_iff (h.keys e he) hk]

theorem insertEntry {es : List (κ × ν)} (hes : ∀ e ∈ es, e.1 ∈ s) {k : κ} (hk : k ∈ s) (v : ν) :
    OrderedMap.insertEntry (f k) v (es.map fun e => (f e.1, e.2)) =
      (OrderedMap.insertEntry k v es).map fun e => (f e.1, e.2) := by
  induction es with
  | nil => rfl
  | cons e es ih =>
    obtain ⟨he, hrest⟩ := List.forall_mem_cons.mp hes
    simp only [List.map_cons, OrderedMap.insertEntry, hf.lt_iff_lt hk he,
      hf.injOn.eq_iff hk he, ih hrest]
    split_ifs <;> rfl

theorem insert (h : Rekeyed f s m m') {k : κ} (hk : k ∈ s) (v : ν) :
    Rekeyed f s (m.insert k v) (m'.insert (f k) v) := by
  constructor
  · intro e he
    rcases (m.mem_insert k v e).mp he with rfl | ⟨he, -⟩
    · exact hk
    · exact h.keys e he
  · simp only [OrderedMap.insert, h.entries]
    exact insertEntry hf h.keys hk v

end Rekeyed

end OrderedMap

end Kiomq.Foundations
