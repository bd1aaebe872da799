import Mathlib.Data.List.Basic
import Mathlib.Tactic

/-!
# A cell that is saved and restored

Parties share one cell. Each of them saves the value that it finds, may write other values
while it is in progress, and writes the saved value back at its end. They are listed in the
order in which they saved. The cell has its original value when none is in progress if the
one that began first among those in progress always ends last; strict nesting is not needed.
-/

namespace Kiomq.Foundations

variable {α : Type*}

/-- What a party has saved, and whether it has restored it. -/
structure Saver (α : Type*) where
  saved : α
  restored : Bool

/-- Without a party in progress the cell has its original value, and the first party in
progress has saved this value. -/
structure Nested (original cell : α) (l : List (Saver α)) : Prop where
  idle : (∀ s ∈ l, s.restored = true) → cell = original
  oldest : ∀ k s, l[k]? = some s → s.restored = false →
    (∀ t ∈ l.take k, t.restored = true) → s.saved = original

namespace Nested

variable {original cell : α} {l : List (Saver α)}

theorem start (original : α) : Nested original original [] :=
  ⟨fun _ => rfl, by simp⟩

theorem save (h : Nested original cell l) (cell' : α) :
    Nested original cell' (l ++ [⟨cell, false⟩]) := by
  constructor
  · intro hall
    exact absurd (hall ⟨cell, false⟩ (by simp)) (by simp)
  · intro k s hk hs hbefore
    by_cases hlt : k < l.length
    · rw [List.getElem?_append_left hlt] at hk
      rw [List.take_append_of_le_length hlt.le] at hbefore
      exact h.oldest k s hk hs hbefore
    · -- it is the new party, and all others have restored the cell
      obtain rfl : k = l.length := by
        have := (List.getElem?_eq_some_iff.mp hk).1
        simp only [List.length_append, List.length_singleton] at this
        omega
      obtain rfl : ⟨cell, false⟩ = s := by simpa using hk
      apply h.idle
      simpa using hbefore

theorem write (h : Nested original cell l) (cell' : α) {s : Saver α} (hmem : s ∈ l)
    (hs : s.restored = false) : Nested original cell' l := by
  refine ⟨fun hall => ?_, h.oldest⟩
  have := hall s hmem
  rw [hs] at this
  exact absurd this (by decide)

theorem restore (h : Nested original cell l) {k : ℕ} {s : Saver α} (hk : l[k]? = some s)
    (hs : s.restored = false)
    (hlast : (∀ t ∈ l.take k, t.restored = true) → ∀ t ∈ l.drop (k + 1), t.restored = true) :
    Nested original s.saved (l.set k ⟨s.saved, true⟩) := by
  obtain ⟨hlt, -⟩ := List.getElem?_eq_some_iff.mp hk
  constructor
  · intro hall
    apply h.oldest k s hk hs
    intro t ht
    apply hall
    rw [List.set_eq_take_append_cons_drop, if_pos hlt]
    exact List.mem_append_left _ ht
  · intro j t hj ht hbefore
    rcases lt_trichotomy j k with hjk | rfl | hkj
    · rw [List.getElem?_set_ne (by omega)] at hj
      rw [List.take_set_of_le hjk.le] at hbefore
      exact h.oldest j t hj ht hbefore
    · rw [List.getElem?_set_self hlt] at hj
      obtain rfl := Option.some.inj hj
      simp at ht
    · -- then `k` was the oldest in progress, and `j` has restored the cell before it
      rw [List.getElem?_set_ne (by omega)] at hj
      have hprior : ∀ u ∈ l.take k, u.restored = true := by
        intro u hu
        apply hbefore
        have hsub : (l.set k ⟨s.saved, true⟩).take k = l.take k := List.take_set_of_le le_rfl
        rw [← hsub] at hu
        exact (List.take_subset_take_left _ hkj.le) hu
      have hmem : t ∈ l.drop (k + 1) := by
        apply List.mem_of_getElem? (i := j - (k + 1))
        rw [List.getElem?_drop]
        have hidx : k + 1 + (j - (k + 1)) = j := by omega
        rw [hidx, hj]
      rw [hlast hprior t hmem] at ht
      exact absurd ht (by decide)

end Nested

end Kiomq.Foundations
