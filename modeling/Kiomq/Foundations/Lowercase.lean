import Mathlib.Data.List.Basic
import Mathlib.Tactic

/-!
# Lowercase mapping of text

The lowercase mapping of Unicode text: every character has an image of one or more
characters, and the capital sigma is mapped by its context, to the final form at the
end of a word. The character tables are a parameter; of their content only the ASCII
part and the sigma are fixed.
-/

namespace Kiomq.Foundations

def isAscii (s : List Char) : Bool := s.all fun c => c.toNat < 128

theorem isAscii_cons (c : Char) (s : List Char) :
    isAscii (c :: s) = true ↔ c.toNat < 128 ∧ isAscii s = true := by
  simp [isAscii]

/-- The properties of characters that the mapping consults. -/
structure CaseTable where
  lower : Char → List Char
  cased : Char → Bool
  caseIgnorable : Char → Bool
  lower_ne_nil : ∀ c, lower c ≠ []
  lower_ascii : ∀ c, c.toNat < 128 → lower c = [c.toLower]
  lower_sigma : lower 'Σ' = ['σ']

namespace CaseTable

variable (T : CaseTable)

/-- The first character that is not ignored is a cased one. -/
def caseIgnorableThenCased (s : List Char) : Bool :=
  (s.dropWhile T.caseIgnorable).head?.any T.cased

/-- The image of a character; `before` is what precedes it, nearest first. -/
def lowerAt (before after : List Char) (c : Char) : List Char :=
  if c = 'Σ' then
    if T.caseIgnorableThenCased before && !T.caseIgnorableThenCased after then ['ς'] else ['σ']
  else T.lower c

/-- The image of the text `s` between `before` and `after`. -/
def lowerBetween (before after : List Char) : List Char → List Char
  | [] => []
  | c :: rest => T.lowerAt before (rest ++ after) c ++ lowerBetween (c :: before) after rest

def toLowercase (s : List Char) : List Char := T.lowerBetween [] [] s

def Fixed (s : List Char) : Prop := ∀ c ∈ s, T.lower c = [c]

instance (s : List Char) : Decidable (T.Fixed s) := List.decidableBAll _ s

theorem fixed_append (s t : List Char) : T.Fixed (s ++ t) ↔ T.Fixed s ∧ T.Fixed t :=
  List.forall_mem_append

theorem one_le_length_lowerAt (before after : List Char) (c : Char) :
    1 ≤ (T.lowerAt before after c).length := by
  unfold lowerAt
  split_ifs
  · simp
  · simp
  · exact List.length_pos_iff.mpr (T.lower_ne_nil c)

theorem length_le_length_lowerBetween (before after s : List Char) :
    s.length ≤ (T.lowerBetween before after s).length := by
  induction s generalizing before with
  | nil => simp
  | cons c rest ih =>
    have hc := T.one_le_length_lowerAt before (rest ++ after) c
    have hrest := ih (c :: before)
    simp only [lowerBetween, List.length_cons, List.length_append]
    omega

/-- The context matters only for a character that is changed in any case. -/
theorem lowerAt_eq_self_iff (before after : List Char) (c : Char) :
    T.lowerAt before after c = [c] ↔ T.lower c = [c] := by
  unfold lowerAt
  by_cases hc : c = 'Σ'
  · subst hc
    rw [if_pos rfl, T.lower_sigma]
    split_ifs <;> decide
  · rw [if_neg hc]

/-- Text is its own image just if each of its characters is: an image is never shorter
than its character, so that the characters cannot make up for each other. -/
theorem lowerBetween_eq_self_iff (before after s : List Char) :
    T.lowerBetween before after s = s ↔ T.Fixed s := by
  unfold Fixed
  induction s generalizing before with
  | nil => simp [lowerBetween]
  | cons c rest ih =>
    rw [List.forall_mem_cons, ← ih (c :: before),
      ← T.lowerAt_eq_self_iff before (rest ++ after) c, lowerBetween]
    constructor
    · intro h
      have hc := T.one_le_length_lowerAt before (rest ++ after) c
      have hrest := T.length_le_length_lowerBetween (c :: before) after rest
      have hlen := congrArg List.length h
      have hsplit : T.lowerAt before (rest ++ after) c ++ T.lowerBetween (c :: before) after rest =
          [c] ++ rest := h
      simp only [List.length_append, List.length_cons] at hlen
      apply List.append_inj hsplit
      simp only [List.length_singleton]
      omega
    · rintro ⟨hc, hrest⟩
      rw [hc, hrest]
      rfl

theorem lowerBetween_append (before after s t : List Char) :
    T.lowerBetween before after (s ++ t) =
      T.lowerBetween before (t ++ after) s ++ T.lowerBetween (s.reverse ++ before) after t := by
  induction s generalizing before with
  | nil => simp [lowerBetween]
  | cons c rest ih => simp [lowerBetween, ih (c :: before)]

/-- ASCII text has no sigma, so its context does not matter. -/
theorem lowerBetween_ascii (before after : List Char) {t : List Char}
    (ht : isAscii t = true) : T.lowerBetween before after t = t.map Char.toLower := by
  induction t generalizing before with
  | nil => rfl
  | cons c rest ih =>
    obtain ⟨hc, hrest⟩ := (isAscii_cons c rest).mp ht
    have hsigma : c ≠ 'Σ' := by
      rintro rfl
      revert hc
      decide
    simp [lowerBetween, lowerAt, hsigma, T.lower_ascii c hc, ih (c :: before) hrest]

theorem toLowercase_append_ascii (s : List Char) {t : List Char} (ht : isAscii t = true) :
    T.toLowercase (s ++ t) = T.lowerBetween [] t s ++ t.map Char.toLower := by
  rw [toLowercase, T.lowerBetween_append, T.lowerBetween_ascii _ _ ht, List.append_nil]

/-- Lowercasing the end of a text by hand is enough just if the rest is its own image. -/
theorem toLowercase_append_eq_iff (s : List Char) {t : List Char} (ht : isAscii t = true) :
    T.toLowercase (s ++ t) = s ++ t.map Char.toLower ↔ T.Fixed s := by
  rw [T.toLowercase_append_ascii s ht, List.append_left_inj, T.lowerBetween_eq_self_iff]

theorem toLowercase_append_ne {s s' t t' : List Char} (ht : isAscii t = true)
    (ht' : isAscii t' = true) {c d : Char}
    (hc : (t.map Char.toLower).getLast? = some c) (hd : (t'.map Char.toLower).getLast? = some d)
    (h : c ≠ d) : T.toLowercase (s ++ t) ≠ T.toLowercase (s' ++ t') := by
  rw [T.toLowercase_append_ascii s ht, T.toLowercase_append_ascii s' ht']
  intro heq
  have hlast := congrArg List.getLast? heq
  rw [List.getLast?_append, List.getLast?_append, hc, hd] at hlast
  exact h (Option.some.inj hlast)

/-- The table that knows only the ASCII letters and the sigma. -/
def ascii : CaseTable where
  lower c := if c = 'Σ' then ['σ'] else [c.toLower]
  cased c := c.isAlpha || c = 'Σ'
  caseIgnorable c := c = ':' || c = '.'
  lower_ne_nil c := by split_ifs <;> simp
  lower_ascii c hc := by
    rw [if_neg]
    rintro rfl
    revert hc
    decide
  lower_sigma := rfl

end CaseTable

end Kiomq.Foundations
