import Mathlib.Data.List.Basic
import Mathlib.Tactic

/-!
# Tickets from a shared counter

A party draws a ticket in two operations: it advances the counter, and it reads the
counter back. Later it uses the ticket once. If the counter is never advanced while
some party is between its two operations, the tickets are distinct and every ticket is
unused when its holder comes to use it.
-/

namespace Kiomq.Foundations

/-- The counter, the number of parties between the two operations, the tickets drawn so
far, how many parties hold a ticket, and which tickets have been used. -/
structure Tickets where
  counter : ℕ
  window : ℕ
  issued : List ℕ
  held : ℕ → ℕ
  used : ℕ → Prop

namespace Tickets

/-- While a party is in the window the counter is ahead of every ticket. -/
structure Inv (base : ℕ) (T : Tickets) : Prop where
  window_le : T.window ≤ 1
  base_le : base + T.window ≤ T.counter
  issued_le : ∀ n ∈ T.issued, base < n ∧ n + T.window ≤ T.counter
  nodup : T.issued.Nodup
  held_le : ∀ n, T.held n ≤ 1
  held_fresh : ∀ n, 0 < T.held n → n ∈ T.issued ∧ ¬ T.used n
  used_old : ∀ n, T.used n → n ≤ base ∨ n ∈ T.issued

variable {base : ℕ} {T U : Tickets}

theorem Inv.frame (h : Inv base T) (hc : U.counter = T.counter) (hw : U.window = T.window)
    (hi : U.issued = T.issued) (hheld : ∀ n, U.held n ≤ T.held n)
    (hused : ∀ n, U.used n → T.used n) : Inv base U := by
  constructor
  · simpa only [hw] using h.window_le
  · simpa only [hw, hc] using h.base_le
  · simpa only [hw, hc, hi] using h.issued_le
  · simpa only [hi] using h.nodup
  · intro n
    exact (hheld n).trans (h.held_le n)
  · intro n hn
    obtain ⟨hmem, hfresh⟩ := h.held_fresh n (hn.trans_le (hheld n))
    exact ⟨hi ▸ hmem, fun hu => hfresh (hused n hu)⟩
  · intro n hn
    simpa only [hi] using h.used_old n (hused n hn)

theorem Inv.advance (h : Inv base T) (hfree : T.window = 0) (hc : U.counter = T.counter + 1)
    (hw : U.window = T.window + 1) (hi : U.issued = T.issued) (hheld : ∀ n, U.held n ≤ T.held n)
    (hused : ∀ n, U.used n → T.used n) : Inv base U := by
  have hbase := h.base_le
  have hmid : Inv base { U with counter := T.counter, window := T.window } :=
    h.frame rfl rfl hi hheld hused
  refine ⟨by omega, by omega, ?_, hmid.nodup, hmid.held_le, hmid.held_fresh, hmid.used_old⟩
  intro n hn
  obtain ⟨hlt, hle⟩ := h.issued_le n (hi ▸ hn)
  exact ⟨hlt, by omega⟩

/-- The party in the window reads the counter: nobody has that ticket. -/
theorem Inv.not_mem_issued (h : Inv base T) (hw : 0 < T.window) : T.counter ∉ T.issued := by
  intro hmem
  have := (h.issued_le _ hmem).2
  omega

theorem Inv.load (h : Inv base T) (hc : U.counter = T.counter) (hw : T.window = U.window + 1)
    (hi : U.issued = T.counter :: T.issued)
    (hheld : ∀ n, U.held n ≤ T.held n + if n = T.counter then 1 else 0)
    (hused : ∀ n, U.used n → T.used n) : Inv base U := by
  have hwindow := h.window_le
  have hbase := h.base_le
  have hnew := h.not_mem_issued (by omega)
  have hunused : ¬ T.used T.counter := by
    intro hu
    rcases h.used_old _ hu with hle | hmem
    · omega
    · exact hnew hmem
  have hzero : T.held T.counter = 0 := by
    by_contra hpos
    exact hnew (h.held_fresh _ (Nat.pos_of_ne_zero hpos)).1
  constructor
  · omega
  · omega
  · intro n hn
    rw [hi] at hn
    rcases List.mem_cons.mp hn with rfl | hn
    · omega
    · have := h.issued_le n hn
      omega
  · rw [hi]
    exact List.nodup_cons.mpr ⟨hnew, h.nodup⟩
  · intro n
    have hn := hheld n
    have hle := h.held_le n
    split_ifs at hn with heq
    · rw [heq, hzero] at hn
      rw [heq]
      omega
    · omega
  · intro n hn
    have hle := hheld n
    rw [hi]
    split_ifs at hle with heq
    · subst heq
      exact ⟨List.mem_cons_self, fun hu => hunused (hused _ hu)⟩
    · obtain ⟨hmem, hfresh⟩ := h.held_fresh n (by omega)
      exact ⟨List.mem_cons_of_mem _ hmem, fun hu => hfresh (hused n hu)⟩
  · intro n hn
    rw [hi]
    exact (h.used_old n (hused n hn)).imp_right (List.mem_cons_of_mem _)

theorem Inv.use (h : Inv base T) (t : ℕ) (ht : 0 < T.held t) (hc : U.counter = T.counter)
    (hw : U.window = T.window) (hi : U.issued = T.issued)
    (hheld : ∀ n, U.held n + (if n = t then 1 else 0) ≤ T.held n)
    (hused : ∀ n, U.used n → T.used n ∨ n = t) : Inv base U := by
  have hmid : Inv base { U with used := T.used } :=
    h.frame hc hw hi (fun n => (Nat.le_add_right _ _).trans (hheld n)) fun _ hu => hu
  refine ⟨hmid.window_le, hmid.base_le, hmid.issued_le, hmid.nodup, hmid.held_le, ?_, ?_⟩
  · intro n hn
    obtain ⟨hmem, hfresh⟩ := hmid.held_fresh n hn
    have hsum := hheld n
    have hle := h.held_le n
    have hne : n ≠ t := by
      intro heq
      rw [if_pos heq] at hsum
      omega
    refine ⟨hmem, fun hu => ?_⟩
    rcases hused n hu with hu | heq
    · exact hfresh hu
    · exact hne heq
  · intro n hn
    rw [hi]
    rcases hused n hn with hu | rfl
    · exact h.used_old n hu
    · exact Or.inr (h.held_fresh n ht).1

end Tickets

end Kiomq.Foundations
