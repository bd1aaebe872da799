import Mathlib.Data.List.Basic
import Mathlib.Tactic

/-!
# Decimal texts

Reading a number from a text, as a fixed-width integer type does. The texts that are
written are the digits of a number, which are read back if the number fits the width.
-/

namespace Kiomq.Foundations

def parseDigits (text : List Char) : Option ℕ :=
  if text ≠ [] ∧ text.all Char.isDigit = true then some (Nat.ofDigitChars 10 text 0) else none

/-- A number below `2 ^ width`. -/
def parseNumber (width : ℕ) (text : List Char) : Option ℕ :=
  (parseDigits text).filter fun n => decide (n < 2 ^ width)

/-- The same; a plus sign may stand before the digits. -/
def parseUnsigned (width : ℕ) (text : List Char) : Option ℕ :=
  parseNumber width (match text with
    | '+' :: rest => rest
    | _ => text)

def integerText (z : ℤ) : List Char :=
  if z < 0 then '-' :: Nat.toDigits 10 z.natAbs else Nat.toDigits 10 z.toNat

/-- A number of `width` bits with a sign. -/
def parseSigned (width : ℕ) (text : List Char) : Option ℤ :=
  (match text with
    | '-' :: rest => (parseDigits rest).map fun n : ℕ => -(n : ℤ)
    | _ => (parseDigits text).map fun n : ℕ => (n : ℤ)).filter fun z =>
      decide (-2 ^ (width - 1) ≤ z ∧ z < 2 ^ (width - 1))

theorem isDigit_of_mem_toDigits {n : ℕ} {c : Char} (h : c ∈ Nat.toDigits 10 n) :
    c.isDigit = true := Nat.isDigit_of_mem_toDigits (by decide) (by decide) h

theorem parseDigits_toDigits (n : ℕ) : parseDigits (Nat.toDigits 10 n) = some n := by
  have hall : (Nat.toDigits 10 n).all Char.isDigit = true :=
    List.all_eq_true.mpr fun c hc => isDigit_of_mem_toDigits hc
  rw [parseDigits, if_pos ⟨Nat.toDigits_ne_nil, hall⟩, Nat.ofDigitChars_ten_toDigits]

theorem parseNumber_toDigits {width n : ℕ} (h : n < 2 ^ width) :
    parseNumber width (Nat.toDigits 10 n) = some n := by
  simp [parseNumber, parseDigits_toDigits, h]

theorem parseUnsigned_toDigits {width n : ℕ} (h : n < 2 ^ width) :
    parseUnsigned width (Nat.toDigits 10 n) = some n := by
  unfold parseUnsigned
  split
  · rename_i rest heq
    have hplus : '+' ∈ Nat.toDigits 10 n := by
      rw [heq]
      exact List.mem_cons_self
    exact absurd (isDigit_of_mem_toDigits hplus) (by decide)
  · exact parseNumber_toDigits h

theorem integerText_natCast (n : ℕ) : integerText n = Nat.toDigits 10 n := by
  simp [integerText]

theorem parseSigned_of_parseNumber {width n : ℕ} {text : List Char}
    (h : parseNumber width text = some n) (hn : n < 2 ^ (width - 1)) :
    parseSigned width text = some (n : ℤ) := by
  obtain ⟨hparse, -⟩ := Option.filter_eq_some_iff.mp h
  have hrange : -2 ^ (width - 1) ≤ (n : ℤ) ∧ (n : ℤ) < 2 ^ (width - 1) := by
    constructor
    · have : (0 : ℤ) ≤ 2 ^ (width - 1) := by positivity
      omega
    · exact_mod_cast hn
  unfold parseSigned
  split
  · -- a sign is not a digit
    simp [parseDigits] at hparse
  · rw [hparse, Option.map_some, Option.filter_eq_some_iff]
    exact ⟨rfl, decide_eq_true hrange⟩

theorem parseUnsigned_of_parseNumber {width n : ℕ} {text : List Char}
    (h : parseNumber width text = some n) : parseUnsigned width text = some n := by
  obtain ⟨hparse, -⟩ := Option.filter_eq_some_iff.mp h
  unfold parseUnsigned
  split
  · -- a sign is not a digit
    simp [parseDigits] at hparse
  · exact h

theorem toDigits_injective : Function.Injective (Nat.toDigits 10) := by
  intro m n h
  have hparse := congrArg parseDigits h
  simpa [parseDigits_toDigits] using hparse

theorem append_cons_inj {α : Type*} {s s' t t' : List α} {c : α} (ht : c ∉ t) (ht' : c ∉ t')
    (h : s ++ c :: t = s' ++ c :: t') : s = s' ∧ t = t' := by
  have key : ∀ {u v v' : List α}, c ∉ v → c :: v = u ++ c :: v' → u = [] := by
    intro u v v' hv heq
    cases u with
    | nil => rfl
    | cons d u =>
      obtain ⟨-, htail⟩ := List.cons.inj heq
      exact absurd (by simp [htail]) hv
  rcases List.append_eq_append_iff.mp h with ⟨u, hs, heq⟩ | ⟨u, hs, heq⟩
  · obtain rfl := key ht heq
    exact ⟨by simpa using hs.symm, (List.cons.inj heq).2⟩
  · obtain rfl := key ht' heq
    exact ⟨by simpa using hs, (List.cons.inj heq).2.symm⟩

/-- A text that ends with the digits of a number, after a character that is none, determines
both its parts. -/
theorem append_cons_toDigits_inj {s s' : List Char} {c : Char} {m n : ℕ}
    (hc : c.isDigit = false)
    (h : s ++ c :: Nat.toDigits 10 m = s' ++ c :: Nat.toDigits 10 n) : s = s' ∧ m = n := by
  have hnot : ∀ k, c ∉ Nat.toDigits 10 k := by
    intro k hmem
    rw [isDigit_of_mem_toDigits hmem] at hc
    cases hc
  obtain ⟨hs, hdigits⟩ := append_cons_inj (hnot m) (hnot n) h
  exact ⟨hs, toDigits_injective hdigits⟩

end Kiomq.Foundations
