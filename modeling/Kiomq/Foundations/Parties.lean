import Mathlib.Data.List.Basic
import Mathlib.Data.List.Perm.Basic
import Mathlib.Tactic

/-!
# Counting parties

The parties of a concurrent system are a list of program positions, and a step of one
party replaces its entry. What such a step does to the number of parties at a place is
one equation, from which mutual exclusion arguments follow by arithmetic.
-/

namespace Kiomq.Foundations

variable {α : Type*}

theorem countP_set_add {l : List α} {i : ℕ} {a : α} (h : l[i]? = some a) (b : α) (p : α → Bool) :
    (l.set i b).countP p + (if p a then 1 else 0) = l.countP p + if p b then 1 else 0 := by
  induction l generalizing i with
  | nil => simp at h
  | cons x l ih =>
    cases i with
    | zero =>
      obtain rfl : x = a := by simpa using h
      simp only [List.set_cons_zero, List.countP_cons]
      omega
    | succ i =>
      have hi := ih (by simpa using h)
      simp only [List.set_cons_succ, List.countP_cons]
      omega

theorem countP_set_eq {l : List α} {i : ℕ} {a b : α} {p : α → Bool} (h : l[i]? = some a)
    (hab : p b = p a) : (l.set i b).countP p = l.countP p := by
  have := countP_set_add h b p
  rw [hab] at this
  omega

theorem countP_set_le {l : List α} {i : ℕ} {a b : α} {p : α → Bool} (h : l[i]? = some a)
    (hab : p b = true → p a = true) : (l.set i b).countP p ≤ l.countP p := by
  have hset := countP_set_add h b p
  by_cases hb : p b = true
  · rw [if_pos hb, if_pos (hab hb)] at hset
    omega
  · rw [if_neg hb] at hset
    omega

theorem countP_set_enter {l : List α} {i : ℕ} {a b : α} {p : α → Bool} (h : l[i]? = some a)
    (ha : p a = false) (hb : p b = true) : (l.set i b).countP p = l.countP p + 1 := by
  simpa [ha, hb] using countP_set_add h b p

theorem countP_set_leave {l : List α} {i : ℕ} {a b : α} {p : α → Bool} (h : l[i]? = some a)
    (ha : p a = true) (hb : p b = false) : l.countP p = (l.set i b).countP p + 1 := by
  simpa [ha, hb] using (countP_set_add h b p).symm

theorem countP_set_le_add {l : List α} {i : ℕ} {a b : α} {p : α → Bool} {q : Prop} [Decidable q]
    (h : l[i]? = some a) (hb : p b = true → q) :
    (l.set i b).countP p ≤ l.countP p + if q then 1 else 0 := by
  have hset := countP_set_add h b p
  by_cases hq : q
  · rw [if_pos hq]
    split_ifs at hset <;> omega
  · rw [if_neg (fun hp => hq (hb hp))] at hset
    omega

theorem countP_set_add_le {l : List α} {i : ℕ} {a b : α} {p : α → Bool} {q : Prop} [Decidable q]
    (h : l[i]? = some a) (ha : q → p a = true) (hb : p b = false) :
    (l.set i b).countP p + (if q then 1 else 0) ≤ l.countP p := by
  have hset := countP_set_add h b p
  rw [hb] at hset
  by_cases hq : q
  · simpa [hq, ha hq] using hset.le
  · rw [if_neg hq]
    simp only [Bool.false_eq_true, if_false] at hset
    omega

theorem countP_pos_of_getElem? {l : List α} {i : ℕ} {a : α} {p : α → Bool} (h : l[i]? = some a)
    (ha : p a = true) : 0 < l.countP p :=
  List.countP_pos_iff.mpr ⟨a, List.mem_of_getElem? h, ha⟩

theorem countP_eq_zero_of_forall {l : List α} {p : α → Bool} (h : ∀ a ∈ l, p a = false) :
    l.countP p = 0 := by
  rw [List.countP_eq_zero]
  intro a ha
  simp [h a ha]

theorem two_le_countP {l : List α} {i j : ℕ} {a b : α} {p : α → Bool} (hij : i ≠ j)
    (hi : l[i]? = some a) (hj : l[j]? = some b) (ha : p a = true) (hb : p b = true) :
    2 ≤ l.countP p := by
  induction l generalizing i j with
  | nil => simp at hi
  | cons x l ih =>
    rw [List.countP_cons]
    cases i with
    | zero =>
      cases j with
      | zero => exact absurd rfl hij
      | succ j =>
        obtain rfl : x = a := by simpa using hi
        have hpos : 0 < l.countP p := countP_pos_of_getElem? (by simpa using hj) hb
        rw [if_pos ha]
        omega
    | succ i =>
      cases j with
      | zero =>
        obtain rfl : x = b := by simpa using hj
        have hpos : 0 < l.countP p := countP_pos_of_getElem? (by simpa using hi) ha
        rw [if_pos hb]
        omega
      | succ j =>
        have hi' : l[i]? = some a := by simpa using hi
        have hj' : l[j]? = some b := by simpa using hj
        have h := ih (by omega) hi' hj'
        omega

theorem getElem?_set_cases {l : List α} {i j : ℕ} {b c : α} (h : (l.set i b)[j]? = some c) :
    (j = i ∧ c = b) ∨ (j ≠ i ∧ l[j]? = some c) := by
  by_cases hj : j = i
  · subst hj
    rw [List.getElem?_set_self'] at h
    obtain ⟨x, -, rfl⟩ := Option.map_eq_some_iff.mp h
    exact Or.inl ⟨rfl, rfl⟩
  · exact Or.inr ⟨hj, by rwa [List.getElem?_set_ne (Ne.symm hj)] at h⟩

theorem forall_mem_set {l : List α} {i : ℕ} {b : α} {q : α → Prop} (h : ∀ a ∈ l, q a) (hb : q b) :
    ∀ a ∈ l.set i b, q a := by
  intro a ha
  rcases List.mem_or_eq_of_mem_set ha with ha | rfl
  · exact h a ha
  · exact hb

theorem forall_mem_concat {l : List α} {b : α} {q : α → Prop} (h : ∀ a ∈ l, q a) (hb : q b) :
    ∀ a ∈ l ++ [b], q a :=
  List.forall_mem_append.mpr ⟨h, List.forall_mem_singleton.mpr hb⟩

theorem forall_mem_modify {l : List α} {q : α → Prop} {f : α → α} (i : ℕ) (h : ∀ a ∈ l, q a)
    (hf : ∀ a, q a → q (f a)) : ∀ a ∈ l.modify i f, q a := by
  intro a ha
  obtain ⟨j, hj⟩ := List.mem_iff_getElem?.mp ha
  rw [List.getElem?_modify] at hj
  obtain ⟨b, hb, rfl⟩ := Option.map_eq_some_iff.mp hj
  have hqb := h b (List.mem_of_getElem? hb)
  split_ifs
  · exact hf b hqb
  · exact hqb

theorem perm_set {l : List α} {i : ℕ} {a : α} (h : l[i]? = some a) (b : α) :
    ∃ rest, l.Perm (a :: rest) ∧ (l.set i b).Perm (b :: rest) := by
  obtain ⟨hi, rfl⟩ := List.getElem?_eq_some_iff.mp h
  exact ⟨l.eraseIdx i, (List.getElem_cons_eraseIdx_perm hi).symm,
    List.set_perm_cons_eraseIdx hi b⟩

end Kiomq.Foundations
