import Kiomq.Foundations.OrderedMap

/-!
# Ranges and pages of an ordered collection

Positions in an ordered map are turned into keys, and the keys into a range of entries. The
range between the keys at two positions is the slice between the positions. Pages are slices of
one size; those that end within a list make up as much of it as whole pages cover.
-/

namespace Kiomq.Foundations

/-! ### The range between two positions -/

section Sorted

variable {κ ν : Type*} [LinearOrder κ] {l : List (κ × ν)}

theorem filter_le_eq_take (hl : l.Pairwise fun a b => a.1 < b.1) {j : ℕ} {b : κ × ν}
    (hj : l[j]? = some b) : l.filter (fun e => e.1 ≤ b.1) = l.take (j + 1) := by
  induction l generalizing j with
  | nil => simp at hj
  | cons e l ih =>
    obtain ⟨he, hl⟩ := List.pairwise_cons.mp hl
    cases j with
    | zero =>
      obtain rfl : e = b := by simpa using hj
      have hrest : l.filter (fun x => x.1 ≤ e.1) = [] := by
        rw [List.filter_eq_nil_iff]
        intro x hx
        simpa using he x hx
      simp [hrest]
    | succ j =>
      have hj : l[j]? = some b := by simpa using hj
      have hle : e.1 ≤ b.1 := (he b (List.mem_of_getElem? hj)).le
      rw [List.filter_cons, if_pos (by simpa using hle), ih hl hj, List.take_succ_cons]

theorem filter_ge_eq_drop (hl : l.Pairwise fun a b => a.1 < b.1) {i : ℕ} {a : κ × ν}
    (hi : l[i]? = some a) : l.filter (fun e => a.1 ≤ e.1) = l.drop i := by
  induction l generalizing i with
  | nil => simp at hi
  | cons e l ih =>
    obtain ⟨he, hl⟩ := List.pairwise_cons.mp hl
    cases i with
    | zero =>
      obtain rfl : e = a := by simpa using hi
      rw [List.drop_zero, List.filter_eq_self]
      intro x hx
      rcases List.mem_cons.mp hx with rfl | hx
      · simp
      · exact decide_eq_true (he x hx).le
    | succ i =>
      have hi : l[i]? = some a := by simpa using hi
      have hlt : ¬ a.1 ≤ e.1 := not_le.mpr (he a (List.mem_of_getElem? hi))
      rw [List.filter_cons, if_neg (by simpa using hlt), ih hl hi, List.drop_succ_cons]

theorem filter_between_eq_slice (hl : l.Pairwise fun a b => a.1 < b.1) {i j : ℕ} {a b : κ × ν}
    (hi : l[i]? = some a) (hj : l[j]? = some b) :
    l.filter (fun e => a.1 ≤ e.1 ∧ e.1 ≤ b.1) = (l.take (j + 1)).drop i := by
  have hsplit : l.filter (fun e => a.1 ≤ e.1 ∧ e.1 ≤ b.1) =
      (l.filter fun e => e.1 ≤ b.1).filter fun e => a.1 ≤ e.1 := by
    rw [List.filter_filter]
    simp only [Bool.decide_and]
  rw [hsplit, filter_le_eq_take hl hj]
  by_cases hij : i < j + 1
  · exact filter_ge_eq_drop (hl.sublist (List.take_sublist _ _))
      ((List.getElem?_take_of_lt hij).trans hi)
  · -- the first key is behind the last one
    have hnone : (l.take (j + 1)).filter (fun e => a.1 ≤ e.1) = [] := by
      rw [List.filter_eq_nil_iff]
      intro e he
      obtain ⟨n, hn⟩ := List.mem_iff_getElem?.mp he
      have hlt : n < j + 1 := by
        by_contra hge
        rw [List.getElem?_take_eq_none (by omega)] at hn
        cases hn
      rw [List.getElem?_take_of_lt hlt] at hn
      obtain ⟨hnl, rfl⟩ := List.getElem?_eq_some_iff.mp hn
      obtain ⟨hil, rfl⟩ := List.getElem?_eq_some_iff.mp hi
      have := List.pairwise_iff_getElem.mp hl n i hnl hil (by omega)
      simpa using this
    rw [hnone, List.drop_eq_nil_of_le]
    rw [List.length_take]
    omega

end Sorted

namespace OrderedMap

variable {κ ν : Type*} [LinearOrder κ]

def between (m : OrderedMap κ ν) (first last : κ) : List (κ × ν) :=
  m.entries.filter fun e => first ≤ e.1 ∧ e.1 ≤ last

theorem between_eq_slice (m : OrderedMap κ ν) {i j : ℕ} {a b : κ × ν}
    (hi : m.entries[i]? = some a) (hj : m.entries[j]? = some b) :
    m.between a.1 b.1 = (m.entries.take (j + 1)).drop i :=
  filter_between_eq_slice m.sorted hi hj

end OrderedMap

/-! ### Pages -/

section Pages

variable {α : Type*}

theorem flatMap_whole_pages (l : List α) {k : ℕ} (hk : 0 < k) (n : ℕ) :
    ((List.range n).flatMap fun i =>
        if i * k + k ≤ l.length then (l.drop (i * k)).take k else []) =
      l.take (min n (l.length / k) * k) := by
  induction n with
  | zero => simp
  | succ n ih =>
    have hwhole : n * k + k ≤ l.length ↔ n < l.length / k := by
      rw [← Nat.succ_mul, ← Nat.le_div_iff_mul_le hk]
      exact Iff.rfl
    rw [List.range_succ, List.flatMap_append, ih, List.flatMap_singleton]
    by_cases hn : n < l.length / k
    · rw [if_pos (hwhole.mpr hn), min_eq_left hn.le, min_eq_left (Nat.succ_le_of_lt hn),
        Nat.succ_mul, List.take_add]
    · rw [if_neg (fun h => hn (hwhole.mp h)), List.append_nil, min_eq_right (by omega),
        min_eq_right (by omega)]

theorem take_whole_pages_eq_iff (l : List α) (k : ℕ) :
    l.take (l.length / k * k) = l ↔ k ∣ l.length := by
  rw [List.take_eq_self_iff]
  constructor
  · intro h
    have heq := le_antisymm h (Nat.div_mul_le_self l.length k)
    exact ⟨l.length / k, heq.trans (Nat.mul_comm _ _)⟩
  · intro h
    exact (Nat.div_mul_cancel h).ge

theorem flatMap_filter_of_nil {β : Type*} (l : List α) (p : α → Bool) (f : α → List β)
    (h : ∀ a ∈ l, p a = false → f a = []) : (l.filter p).flatMap f = l.flatMap f := by
  induction l with
  | nil => rfl
  | cons a l ih =>
    have ih := ih fun b hb => h b (List.mem_cons_of_mem _ hb)
    cases hp : p a with
    | true => rw [List.filter_cons_of_pos hp, List.flatMap_cons, List.flatMap_cons, ih]
    | false =>
      rw [List.filter_cons_of_neg (by simp [hp]), List.flatMap_cons, h a List.mem_cons_self hp,
        List.nil_append, ih]

end Pages

end Kiomq.Foundations
