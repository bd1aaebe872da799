import Mathlib.Data.List.Basic
import Mathlib.Data.List.Nodup

/-!
# Lists in the order of last use

The list holds each value once, the one that was used last in front.
-/

namespace Kiomq.Foundations

variable {α : Type*}

section Touch

variable [DecidableEq α]

def touch (x : α) (l : List α) : List α := x :: l.erase x

theorem length_touch (x : α) (l : List α) : (touch x l).length = (l.erase x).length + 1 := rfl

theorem mem_touch {x y : α} {l : List α} : y ∈ touch x l ↔ y = x ∨ y ∈ l := by
  unfold touch
  rw [List.mem_cons]
  by_cases h : y = x
  · simp [h]
  · rw [List.mem_erase_of_ne h]

theorem nodup_touch {l : List α} (h : l.Nodup) (x : α) : (touch x l).Nodup :=
  List.nodup_cons.mpr ⟨h.not_mem_erase, h.erase x⟩

theorem mem_take_touch {n : ℕ} (hn : 0 < n) (x : α) (l : List α) : x ∈ (touch x l).take n := by
  cases n with
  | zero => exact absurd hn (Nat.lt_irrefl 0)
  | succ n => exact List.mem_cons_self

end Touch

theorem exists_not_mem_take {l : List α} (h : l.Nodup) {n : ℕ} (hn : n < l.length) :
    ∃ x ∈ l, x ∉ l.take n := by
  induction l generalizing n with
  | nil => exact absurd hn (Nat.not_lt_zero n)
  | cons a l ih =>
    obtain ⟨ha, hl⟩ := List.nodup_cons.mp h
    cases n with
    | zero => exact ⟨a, List.mem_cons_self, by simp⟩
    | succ n =>
      obtain ⟨x, hx, hnot⟩ := ih hl (Nat.lt_of_succ_lt_succ hn)
      refine ⟨x, List.mem_cons_of_mem a hx, ?_⟩
      rw [List.take_succ_cons, List.mem_cons]
      rintro (rfl | hmem)
      · exact ha hx
      · exact hnot hmem

end Kiomq.Foundations
