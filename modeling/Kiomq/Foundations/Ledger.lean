import Mathlib.Logic.Relation
import Mathlib.Tactic

/-!
# A ledger of exclusive tokens with a spending budget

Each item of a work system is a token. `held` counts its copies in circulation;
its account, while it is open, records how often the token has been spent and how
often it may be. A token that is spent leaves circulation, and it may be granted
again only while the budget is not used up. The result is that no token is ever
held twice and no account is overdrawn, whatever the order of the moves.
-/

namespace Kiomq.Foundations

structure Account where
  spent : ℕ
  budget : ℕ
  deriving DecidableEq, Repr

@[ext] structure Ledger (ι : Type*) where
  held : ι → ℕ
  account : ι → Option Account

namespace Ledger

variable {ι : Type*} [DecidableEq ι]

inductive Move : Ledger ι → Ledger ι → Prop
  /-- Open an account with a positive budget for a token out of circulation. -/
  | register (L : Ledger ι) (i : ι) (b : ℕ) (hb : 0 < b) (hi : L.held i = 0) :
      Move L { L with account := Function.update L.account i (some ⟨0, b⟩) }
  /-- Put a token into circulation, if its account still allows a spending. -/
  | grant (L : Ledger ι) (i : ι) (a : Account) (hi : L.held i = 0)
      (ha : L.account i = some a) (hlt : a.spent < a.budget) :
      Move L { L with held := Function.update L.held i 1 }
  /-- Take a token out of circulation and charge its account. -/
  | spend (L : Ledger ι) (i : ι) (a : Account) (n : ℕ) (hi : L.held i ≠ 0)
      (ha : L.account i = some a) (hn : n ≤ a.spent + 1) :
      Move L { held := Function.update L.held i 0
               account := Function.update L.account i (some { a with spent := n }) }
  /-- Lose tokens from circulation. -/
  | drop (L : Ledger ι) (h : ι → ℕ) (hle : ∀ i, h i ≤ L.held i) : Move L { L with held := h }
  /-- Close some accounts. -/
  | close (L : Ledger ι) (acc : ι → Option Account)
      (hacc : ∀ i, acc i = L.account i ∨ acc i = none) : Move L { L with account := acc }

/-- No token is held twice, and what is spent and in circulation fits the budget. -/
def Sound (L : Ledger ι) : Prop :=
  ∀ i, L.held i ≤ 1 ∧ ∀ a, L.account i = some a → a.spent + L.held i ≤ a.budget

theorem Move.sound {L L' : Ledger ι} (h : Move L L') (hs : Sound L) : Sound L' := by
  cases h with
  | register i b hb hi =>
    intro j
    refine ⟨(hs j).1, ?_⟩
    intro a ha
    by_cases hj : j = i
    · subst hj
      obtain rfl : ⟨0, b⟩ = a := by simpa using ha
      simp only [hi]
      omega
    · exact (hs j).2 a (by simpa [hj] using ha)
  | grant i a hi ha hlt =>
    intro j
    by_cases hj : j = i
    · subst hj
      refine ⟨by simp, ?_⟩
      intro b hb
      obtain rfl : a = b := Option.some.inj (ha.symm.trans hb)
      simpa using hlt
    · simpa [hj] using hs j
  | spend i a n hi ha hn =>
    intro j
    by_cases hj : j = i
    · subst hj
      refine ⟨by simp, ?_⟩
      intro b hb
      obtain rfl : { a with spent := n } = b := by simpa using hb
      have := (hs j).2 a ha
      simp only [Function.update_self]
      omega
    · simpa [hj] using hs j
  | drop h hle =>
    intro j
    refine ⟨(hle j).trans (hs j).1, ?_⟩
    intro a ha
    exact (Nat.add_le_add_left (hle j) _).trans ((hs j).2 a ha)
  | close acc hacc =>
    intro j
    refine ⟨(hs j).1, ?_⟩
    intro a ha
    rcases hacc j with hj | hj
    · exact (hs j).2 a (hj ▸ ha)
    · simp [hj] at ha

abbrev Moves : Ledger ι → Ledger ι → Prop := Relation.ReflTransGen Move

theorem Moves.sound {L L' : Ledger ι} (h : Moves L L') (hs : Sound L) : Sound L' := by
  induction h with
  | refl => exact hs
  | tail _ hm ih => exact hm.sound ih

end Ledger

end Kiomq.Foundations
