import Mathlib.Order.WithBot
import Mathlib.Tactic

/-!
# Maps whose values stop being visible

A map gives each key at most one value and the instant from which on the value is no longer
visible, if there is such an instant. Nothing is ever taken out because of the time: whether a
value is visible is decided when it is looked up. An implementation that deletes such values
at some point agrees with the map from some instant on, which is the relation `SameFrom`.
Insertions and deletions keep it, and so does every deletion of values that are past their
deadline.
-/

namespace Kiomq.Foundations

/-- A value with the instant at which it expires; `⊤` if it never does. -/
structure Timed (T V : Type*) where
  value : V
  deadline : WithTop T

def ExpiringMap (T κ V : Type*) := κ → Option (Timed T V)

namespace ExpiringMap

variable {T κ V : Type*}

def empty : ExpiringMap T κ V := fun _ => none

section Updates

variable [DecidableEq κ]

def insert (m : ExpiringMap T κ V) (k : κ) (v : V) (deadline : WithTop T) : ExpiringMap T κ V :=
  fun k' => if k' = k then some ⟨v, deadline⟩ else m k'

def erase (m : ExpiringMap T κ V) (k : κ) : ExpiringMap T κ V :=
  fun k' => if k' = k then none else m k'

end Updates

variable [LinearOrder T]

/-- The value under a key, if its deadline is strictly later than the instant. -/
def visible (m : ExpiringMap T κ V) (t : T) (k : κ) : Option V :=
  (m k).bind fun e => if (t : WithTop T) < e.deadline then some e.value else none

theorem visible_eq_none_iff (m : ExpiringMap T κ V) (t : T) (k : κ) :
    m.visible t k = none ↔ ∀ e, m k = some e → e.deadline ≤ t := by
  simp [visible, Option.bind_eq_none_iff]

theorem visible_insert_self [DecidableEq κ] (m : ExpiringMap T κ V) (k : κ) (v : V)
    (deadline : WithTop T) (t : T) :
    (m.insert k v deadline).visible t k = if (t : WithTop T) < deadline then some v else none := by
  simp [visible, insert]

/-- The maps cannot be told apart by a look at `t` or later. -/
def SameFrom (t : T) (m l : ExpiringMap T κ V) : Prop :=
  ∀ u, t ≤ u → ∀ k, m.visible u k = l.visible u k

/-- `m'` is `m` without some of the values whose deadline is not later than `t`. -/
def Evicted (t : T) (m m' : ExpiringMap T κ V) : Prop :=
  ∀ k, m' k = m k ∨ m' k = none ∧ ∀ e, m k = some e → e.deadline ≤ t

theorem Evicted.visible_eq {t u : T} {m m' : ExpiringMap T κ V} (h : Evicted t m m') (htu : t ≤ u)
    (k : κ) : m'.visible u k = m.visible u k := by
  rcases h k with hk | ⟨hnone, hdue⟩
  · simp only [visible, hk]
  · have hinvisible : m.visible u k = none := by
      rw [visible_eq_none_iff]
      intro e he
      exact (hdue e he).trans (WithTop.coe_le_coe.mpr htu)
    rw [hinvisible, visible, hnone]
    rfl

namespace SameFrom

variable {t : T} {m m' l : ExpiringMap T κ V}

theorem refl (t : T) (m : ExpiringMap T κ V) : SameFrom t m m := fun _ _ _ => rfl

theorem later (h : SameFrom t m l) {u : T} (htu : t ≤ u) : SameFrom u m l :=
  fun w hw => h w (htu.trans hw)

theorem evicted (h : SameFrom t m l) (hevicted : Evicted t m m') : SameFrom t m' l :=
  fun u hu k => (hevicted.visible_eq hu k).trans (h u hu k)

variable [DecidableEq κ]

theorem insert (h : SameFrom t m l) (k : κ) (v : V) (deadline : WithTop T) :
    SameFrom t (m.insert k v deadline) (l.insert k v deadline) := by
  intro u hu k'
  by_cases hk : k' = k
  · simp [visible, ExpiringMap.insert, hk]
  · simpa [visible, ExpiringMap.insert, hk] using h u hu k'

theorem erase (h : SameFrom t m l) (k : κ) : SameFrom t (m.erase k) (l.erase k) := by
  intro u hu k'
  by_cases hk : k' = k
  · simp [visible, ExpiringMap.erase, hk]
  · simpa [visible, ExpiringMap.erase, hk] using h u hu k'

end SameFrom

end ExpiringMap

end Kiomq.Foundations
