import Mathlib.Algebra.Order.BigOperators.Group.List
import Mathlib.Data.Finset.Card
import Kiomq.Foundations.Runs

/-!
# Paying for what a run does

A run is observed: some of its steps show a value. If every step that shows the value `b` takes
one from a potential, and no other step adds to it, then the run shows `b` at most as often as
the potential at its start allows. Over all values this bounds the number of observations.
-/

namespace Kiomq.Foundations

variable {σ α β : Type*} {step : σ → α → Option σ} {obs : σ → α → Option β}

def observed (step : σ → α → Option σ) (obs : σ → α → Option β) : σ → List α → List β
  | _, [] => []
  | s, a :: as => (obs s a).toList ++ (step s a).elim [] fun t => observed step obs t as

theorem observed_cons {s t : σ} {a : α} (h : step s a = some t) (as : List α) :
    observed step obs s (a :: as) = (obs s a).toList ++ observed step obs t as := by
  rw [observed, h, Option.elim_some]

theorem count_observed_add_le [BEq β] [LawfulBEq β] [DecidableEq β] {b : β} {Inv : σ → Prop}
    {guard : α → Prop} {potential : σ → ℕ}
    (hinv : ∀ s a t, Inv s → guard a → step s a = some t → Inv t)
    (hpay : ∀ s a t, Inv s → guard a → step s a = some t →
      potential t + (if obs s a = some b then 1 else 0) ≤ potential s)
    {s t : σ} {as : List α} (hs : Inv s) (hg : ∀ a ∈ as, guard a)
    (hrun : run step s as = some t) :
    (observed step obs s as).count b + potential t ≤ potential s := by
  induction as generalizing s with
  | nil =>
    obtain rfl := Option.some.inj hrun
    simp [observed]
  | cons a as ih =>
    obtain ⟨u, hu, hrun⟩ := run_cons.mp hrun
    have hga := hg a List.mem_cons_self
    have hrest := ih (hinv s a u hs hga hu) (fun c hc => hg c (List.mem_cons_of_mem _ hc)) hrun
    have hfirst := hpay s a u hs hga hu
    have hone : (obs s a).toList.count b = if obs s a = some b then 1 else 0 := by
      cases obs s a with
      | none => rfl
      | some c => simp [List.count_singleton]
    rw [observed_cons hu, List.count_append, hone]
    omega

theorem length_le_sum_of_count_le {l : List ℕ} {f : ℕ → ℕ} {n : ℕ}
    (hcount : ∀ b, l.count b ≤ f b) (hbound : ∀ b, n < b → f b = 0) :
    l.length ≤ ∑ b ∈ Finset.range (n + 1), f b := by
  have hsub : l.toFinset ⊆ Finset.range (n + 1) := by
    intro b hb
    have hpos : 0 < l.count b := List.count_pos_iff.mpr (List.mem_toFinset.mp hb)
    have hle := hcount b
    rw [Finset.mem_range]
    by_contra hlt
    rw [hbound b (by omega)] at hle
    omega
  calc l.length = ∑ b ∈ l.toFinset, l.count b := (List.sum_toFinset_count_eq_length l).symm
    _ ≤ ∑ b ∈ l.toFinset, f b := Finset.sum_le_sum fun b _ => hcount b
    _ ≤ ∑ b ∈ Finset.range (n + 1), f b := Finset.sum_le_sum_of_subset hsub

end Kiomq.Foundations
