import Mathlib.Data.Nat.ModEq
import Mathlib.Tactic

/-!
# The ticks of a periodic clock

A clock ticks at the instants `origin + k * period`. Seen from an instant at or after the
origin, the next tick lies at most one period ahead, and the one after it exactly one
period later.
-/

namespace Kiomq.Foundations

variable {origin period start x : ℕ}

/-- The instants in `(start, stop]` at which the clock ticks, in order. -/
def ticks (origin period start stop : ℕ) : List ℕ :=
  (List.range' (start + 1) (stop - start)).filter fun x => (x - origin) % period = 0

/-- The first tick strictly after `start`. -/
def nextTick (origin period start : ℕ) : ℕ := start + (period - (start - origin) % period)

theorem ticks_self (origin period start : ℕ) : ticks origin period start start = [] := by
  simp [ticks]

theorem ticks_succ {stop : ℕ} (h : start ≤ stop) :
    ticks origin period start (stop + 1) =
      ticks origin period start stop ++
        if (stop + 1 - origin) % period = 0 then [stop + 1] else [] := by
  unfold ticks
  rw [Nat.sub_add_comm h, List.range'_concat, List.filter_append]
  congr 1
  have hlast : start + 1 + 1 * (stop - start) = stop + 1 := by omega
  rw [hlast]
  by_cases hx : (stop + 1 - origin) % period = 0 <;> simp [hx]

theorem start_lt_nextTick (h : 0 < period) : start < nextTick origin period start := by
  have := Nat.mod_lt (start - origin) h
  unfold nextTick
  omega

theorem nextTick_eq (horigin : origin ≤ start) (h : 0 < period) :
    nextTick origin period start = origin + period * ((start - origin) / period + 1) := by
  have hlt := Nat.mod_lt (start - origin) h
  have hdiv := Nat.div_add_mod (start - origin) period
  rw [Nat.mul_add, Nat.mul_one]
  unfold nextTick
  omega

theorem mod_nextTick (horigin : origin ≤ start) (h : 0 < period) :
    (nextTick origin period start - origin) % period = 0 := by
  rw [nextTick_eq horigin h, Nat.add_sub_cancel_left, Nat.mul_mod_right]

theorem mod_nextTick_add (horigin : origin ≤ start) (h : 0 < period) :
    (nextTick origin period start + period - origin) % period = 0 := by
  rw [nextTick_eq horigin h, Nat.add_assoc, Nat.add_sub_cancel_left, Nat.add_mod_right,
    Nat.mul_mod_right]

theorem tick_cases (horigin : origin ≤ start) (h : 0 < period) (hx : start < x)
    (htick : (x - origin) % period = 0) :
    x = nextTick origin period start ∨ nextTick origin period start + period ≤ x := by
  obtain ⟨k, hk⟩ := Nat.dvd_of_mod_eq_zero htick
  have hdiv := Nat.div_add_mod (start - origin) period
  rw [nextTick_eq horigin h]
  have hlt : period * ((start - origin) / period) < period * k := by omega
  have hk' := Nat.lt_of_mul_lt_mul_left hlt
  rcases Nat.eq_or_lt_of_le hk' with heq | hlater
  · left
    rw [Nat.add_one, heq]
    omega
  · right
    have hle := Nat.mul_le_mul_left period hlater
    rw [Nat.mul_succ] at hle
    omega

end Kiomq.Foundations
