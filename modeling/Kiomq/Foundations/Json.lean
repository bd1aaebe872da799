import Kiomq.Foundations.Decimal
import Mathlib.Data.List.Infix
import Mathlib.Logic.Encodable.Basic

/-!
# JSON texts

The text of a string with its escapes, and the reader that inverts it. A codec of a type is
a pair of writers, which may differ in their layout, and one reader for both. It reads back
every value whose text is not that of the JSON null; the null stands for a missing value.
-/

namespace Kiomq.Foundations

def nullText : List Char := "null".toList

/-! ### Strings -/

def hexValue (c : Char) : Option ℕ :=
  if c.isDigit then some (c.toNat - 48)
  else if 97 ≤ c.toNat ∧ c.toNat ≤ 102 then some (c.toNat - 87)
  else if 65 ≤ c.toNat ∧ c.toNat ≤ 70 then some (c.toNat - 55)
  else none

theorem hexValue_digitChar : ∀ d < 16, hexValue d.digitChar = some d := by decide

def shortEscapes : List (Char × Char) :=
  [('"', '"'), ('\\', '\\'), ('\x08', 'b'), ('\x0c', 'f'), ('\n', 'n'), ('\r', 'r'), ('\t', 't')]

def escapeChar (c : Char) : List Char :=
  match shortEscapes.lookup c with
  | some letter => ['\\', letter]
  | none =>
    if c.toNat < 32 then
      ['\\', 'u', '0', '0', (c.toNat / 16).digitChar, (c.toNat % 16).digitChar]
    else [c]

def jsonString (s : List Char) : List Char := '"' :: (s.flatMap escapeChar ++ ['"'])

def hexChar (a b c d : Char) : Option Char :=
  (hexValue a).bind fun a => (hexValue b).bind fun b => (hexValue c).bind fun c =>
    (hexValue d).map fun d => Char.ofNat (16 * (16 * (16 * a + b) + c) + d)

/-- Read up to the closing quote, which must be the end of the text. -/
def readString : List Char → Option (List Char)
  | [] => none
  | '"' :: rest => if rest.isEmpty then some [] else none
  | '\\' :: 'u' :: a :: b :: c :: d :: rest =>
    (hexChar a b c d).bind fun x => (readString rest).map (x :: ·)
  | '\\' :: letter :: rest =>
    ((shortEscapes.map Prod.swap).lookup letter).bind fun x => (readString rest).map (x :: ·)
  | c :: rest => if c.toNat < 32 then none else (readString rest).map (c :: ·)

def parseString : List Char → Option (List Char)
  | '"' :: rest => readString rest
  | _ => none

theorem readString_escapeChar (c : Char) (rest : List Char) :
    readString (escapeChar c ++ rest) = (readString rest).map (c :: ·) := by
  unfold escapeChar
  cases hshort : shortEscapes.lookup c with
  | some letter =>
    obtain ⟨before, after, heq, -⟩ := List.lookup_eq_some_iff.mp hshort
    have hmem : (c, letter) ∈ shortEscapes := by
      rw [heq]
      exact List.mem_append_right _ List.mem_cons_self
    simp only [shortEscapes, List.mem_cons, Prod.mk.injEq, List.not_mem_nil, or_false] at hmem
    rcases hmem with ⟨rfl, rfl⟩ | ⟨rfl, rfl⟩ | ⟨rfl, rfl⟩ | ⟨rfl, rfl⟩ | ⟨rfl, rfl⟩ | ⟨rfl, rfl⟩ |
      ⟨rfl, rfl⟩ <;> rfl
  | none =>
    have hne : c ≠ '"' ∧ c ≠ '\\' := by
      constructor
      · rintro rfl
        simp [shortEscapes] at hshort
      · rintro rfl
        simp [shortEscapes] at hshort
    by_cases hcontrol : c.toNat < 32
    · have hhex : hexChar '0' '0' (c.toNat / 16).digitChar (c.toNat % 16).digitChar = some c := by
        have hcode : 16 * (c.toNat / 16) + c.toNat % 16 = c.toNat := Nat.div_add_mod c.toNat 16
        simp [hexChar, hexValue_digitChar _ (show c.toNat / 16 < 16 by omega),
          hexValue_digitChar _ (Nat.mod_lt c.toNat (by decide : 0 < 16)), hcode,
          show hexValue '0' = some 0 by decide]
      simp only [if_pos hcontrol, List.cons_append, List.nil_append]
      rw [readString, hhex]
      rfl
    · simp only [if_neg hcontrol, List.cons_append, List.nil_append]
      rw [readString, if_neg hcontrol]
      · exact hne.1
      · intro _ _ _ _ _ hslash
        exact absurd hslash hne.2
      · intro _ _ hslash
        exact absurd hslash hne.2

theorem parseString_jsonString (s : List Char) : parseString (jsonString s) = some s := by
  have hread : readString (s.flatMap escapeChar ++ ['"']) = some s := by
    induction s with
    | nil => rfl
    | cons c s ih =>
      rw [List.flatMap_cons, List.append_assoc, readString_escapeChar, ih]
      rfl
  exact hread

theorem length_lt_length_jsonString (s : List Char) : s.length < (jsonString s).length := by
  have hpos : ∀ c, 1 ≤ (escapeChar c).length := by
    intro c
    unfold escapeChar
    split
    · simp
    · split_ifs <;> simp
  have hle : s.length ≤ (s.flatMap escapeChar).length := by
    induction s with
    | nil => simp
    | cons c s ih =>
      have := hpos c
      simp only [List.length_cons, List.flatMap_cons, List.length_append]
      omega
  simp only [jsonString, List.length_cons, List.length_append, List.length_nil]
  omega

/-! ### Codecs -/

/-- The writers and the reader of a type. -/
structure Codec (α : Type*) where
  pretty : α → List Char
  compact : α → List Char
  decode : List Char → Option α
  decode_pretty : ∀ a, pretty a ≠ nullText → decode (pretty a) = some a
  decode_compact : ∀ a, compact a ≠ nullText → decode (compact a) = some a

namespace Codec

variable {α : Type*}

def prettyOption (c : Codec α) : Option α → List Char
  | none => nullText
  | some a => c.pretty a

def decodeOption (c : Codec α) (text : List Char) : Option (Option α) :=
  if text = nullText then some none else (c.decode text).map some

theorem decodeOption_pretty (c : Codec α) {a : α} (h : c.pretty a ≠ nullText) :
    c.decodeOption (c.pretty a) = some (some a) := by
  rw [decodeOption, if_neg h, c.decode_pretty a h, Option.map_some]

theorem decodeOption_compact (c : Codec α) {a : α} (h : c.compact a ≠ nullText) :
    c.decodeOption (c.compact a) = some (some a) := by
  rw [decodeOption, if_neg h, c.decode_compact a h, Option.map_some]

def NeverNull (c : Codec α) : Prop := ∀ a, c.pretty a ≠ nullText ∧ c.compact a ≠ nullText

theorem NeverNull.decodeOption_prettyOption {c : Codec α} (h : c.NeverNull) (o : Option α) :
    c.decodeOption (c.prettyOption o) = some o := by
  cases o with
  | none => simp [prettyOption, decodeOption]
  | some a => exact c.decodeOption_pretty (h a).1

/-- Strings; the layout of a text has no part in them. -/
def string : Codec String where
  pretty s := jsonString s.toList
  compact s := jsonString s.toList
  decode text := (parseString text).map String.ofList
  decode_pretty s _ := by simp [parseString_jsonString]
  decode_compact s _ := by simp [parseString_jsonString]

theorem string_neverNull : string.NeverNull := by
  intro s
  have hne : jsonString s.toList ≠ nullText := by
    intro h
    exact absurd (congrArg List.head? h) (by simp [jsonString, nullText])
  exact ⟨hne, hne⟩

/-- Values that are written as the number they have in some numbering of their type. -/
def numbered (number : α → ℕ) (value : ℕ → α) (h : ∀ a, value (number a) = a) : Codec α where
  pretty a := Nat.toDigits 10 (number a)
  compact a := Nat.toDigits 10 (number a)
  decode text := (parseDigits text).map value
  decode_pretty a _ := by simp [parseDigits_toDigits, h]
  decode_compact a _ := by simp [parseDigits_toDigits, h]

/-- The same through some encodable type. -/
def encoded {β : Type*} [Encodable β] (code : α → β) (value : β → α)
    (h : ∀ a, value (code a) = a) (default : α) : Codec α :=
  numbered (fun a => Encodable.encode (code a))
    (fun n => ((Encodable.decode n : Option β).map value).getD default) (by simp [h])

end Codec

theorem not_null_toDigits (n : ℕ) : ¬ nullText <:+: Nat.toDigits 10 n := by
  intro h
  have hmem : 'n' ∈ Nat.toDigits 10 n := h.subset (by decide)
  exact absurd (isDigit_of_mem_toDigits hmem) (by decide)

theorem toDigits_ne_null (n : ℕ) : Nat.toDigits 10 n ≠ nullText := by
  intro h
  exact not_null_toDigits n (h ▸ List.infix_rfl)

theorem Codec.numbered_neverNull {α : Type*} (number : α → ℕ) (value : ℕ → α)
    (h : ∀ a, value (number a) = a) : (Codec.numbered number value h).NeverNull :=
  fun a => ⟨toDigits_ne_null (number a), toDigits_ne_null (number a)⟩

theorem Codec.encoded_neverNull {α β : Type*} [Encodable β] (code : α → β) (value : β → α)
    (h : ∀ a, value (code a) = a) (default : α) :
    (Codec.encoded code value h default).NeverNull :=
  Codec.numbered_neverNull _ _ _

end Kiomq.Foundations
