import Kiomq.Redis.Layout

/-!
# Which queues share a key

The key of a collection is the prefix, the name and the suffix, joined by colons and
lowercased as a whole. The suffix can always be read off the end of a key, so that two
collections of different kinds never share one. What stands before it is the lowercase form
of the text `prefix:name`, and queues whose texts have the same form share all of their keys.
-/

namespace Kiomq

open Foundations Redis

namespace CollectionSuffix

def constants : List CollectionSuffix :=
  [.active, .completed, .delayed, .stalled, .prioritized, .priorityCounter, .id, .metaKey, .events,
    .wait, .paused, .failed, .marker, .prefixKey, .stalledCheck, .workerMetrics, .processMetrics]

theorem constant_or_numbered (suffix : CollectionSuffix) :
    suffix ∈ constants ∨ ∃ n, suffix = .job n ∨ suffix = .lock n := by
  cases suffix with
  | job n => exact Or.inr ⟨n, Or.inl rfl⟩
  | lock n => exact Or.inr ⟨n, Or.inr rfl⟩
  | _ => exact Or.inl (by decide)

/-- The lowercase text of a suffix in two parts: what stands before its last colon, and the
rest. -/
def parts : CollectionSuffix → List Char × List Char
  | .lock n => (':' :: Nat.toDigits 10 n, ['l', 'o', 'c', 'k'])
  | suffix => ([], suffix.display.map Char.toLower)

theorem display_lock (n : ℕ) :
    (lock n).display = Nat.toDigits 10 n ++ [':', 'l', 'o', 'c', 'k'] := by
  have htext : ":lock".toList = [':', 'l', 'o', 'c', 'k'] := by decide
  exact congrArg (Nat.toDigits 10 n ++ ·) htext

theorem parts_constant : ∀ suffix ∈ constants,
    suffix.parts = ([], suffix.display.map Char.toLower) ∧
      isAscii (':' :: suffix.display) = true ∧ ':' ∉ suffix.parts.2 ∧
      (suffix.parts.2 = [] ∨ suffix.parts.2.all Char.isDigit = false) ∧
      suffix.parts.2 ≠ ['l', 'o', 'c', 'k'] := by
  decide +kernel

theorem parts_constant_injective : ∀ σ ∈ constants, ∀ τ ∈ constants,
    σ.parts.2 = τ.parts.2 → σ = τ := by
  decide +kernel

theorem parts_job (n : ℕ) : (job n).parts = ([], Nat.toDigits 10 n) := by
  have hlower := (digits_ascii n).2
  exact congrArg (Prod.mk []) (List.cons.inj hlower).2

theorem isAscii_display (suffix : CollectionSuffix) : isAscii (':' :: suffix.display) = true := by
  rcases suffix.constant_or_numbered with h | ⟨n, rfl | rfl⟩
  · exact (parts_constant suffix h).2.1
  · exact (digits_ascii n).1
  · have hdigits := (digits_ascii n).1
    rw [display_lock]
    unfold isAscii at hdigits ⊢
    rw [← List.cons_append, List.all_append, hdigits]
    decide

theorem lower_display (suffix : CollectionSuffix) :
    (':' :: suffix.display).map Char.toLower = suffix.parts.1 ++ ':' :: suffix.parts.2 := by
  rcases suffix.constant_or_numbered with h | ⟨n, rfl | rfl⟩
  · rw [(parts_constant suffix h).1]
    rfl
  · rw [parts_job]
    exact (digits_ascii n).2
  · rw [display_lock, ← List.cons_append, List.map_append, (digits_ascii n).2]
    rfl

theorem colon_notMem_parts (suffix : CollectionSuffix) : ':' ∉ suffix.parts.2 := by
  rcases suffix.constant_or_numbered with h | ⟨n, rfl | rfl⟩
  · exact (parts_constant suffix h).2.2.1
  · rw [parts_job]
    intro hmem
    exact absurd (isDigit_of_mem_toDigits hmem) (by decide)
  · simp [parts]

theorem job_of_parts {suffix : CollectionSuffix} (n : ℕ)
    (h : suffix.parts.2 = Nat.toDigits 10 n) : suffix = .job n := by
  have hdigits : (Nat.toDigits 10 n).all Char.isDigit = true :=
    List.all_eq_true.mpr fun c hc => isDigit_of_mem_toDigits hc
  rcases suffix.constant_or_numbered with hmem | ⟨m, rfl | rfl⟩
  · rcases (parts_constant suffix hmem).2.2.2.1 with hnil | hletter
    · exact absurd (h.symm.trans hnil) Nat.toDigits_ne_nil
    · rw [h, hdigits] at hletter
      cases hletter
  · rw [parts_job] at h
    rw [toDigits_injective h]
  · rw [← h] at hdigits
    cases hdigits

theorem lock_of_parts {suffix : CollectionSuffix} (h : suffix.parts.2 = ['l', 'o', 'c', 'k']) :
    ∃ n, suffix = .lock n := by
  rcases suffix.constant_or_numbered with hmem | ⟨m, rfl | rfl⟩
  · exact absurd h (parts_constant suffix hmem).2.2.2.2
  · have hdigits : Nat.toDigits 10 m = ['l', 'o', 'c', 'k'] := by
      rw [parts_job] at h
      exact h
    have hl : 'l' ∈ Nat.toDigits 10 m := by
      rw [hdigits]
      decide
    exact absurd (isDigit_of_mem_toDigits hl) (by decide)
  · exact ⟨m, rfl⟩

/-- The end of a key tells the suffix, and what is left is the name of the queue. -/
theorem append_parts_inj {s s' : List Char} {σ τ : CollectionSuffix}
    (h : s ++ (σ.parts.1 ++ ':' :: σ.parts.2) = s' ++ (τ.parts.1 ++ ':' :: τ.parts.2)) :
    σ = τ ∧ s = s' := by
  rw [← List.append_assoc, ← List.append_assoc] at h
  obtain ⟨hfront, hlast⟩ := append_cons_inj σ.colon_notMem_parts τ.colon_notMem_parts h
  rcases σ.constant_or_numbered with hσ | ⟨n, rfl | rfl⟩
  · rcases τ.constant_or_numbered with hτ | ⟨m, rfl | rfl⟩
    · obtain rfl := parts_constant_injective σ hσ τ hτ hlast
      exact ⟨rfl, List.append_cancel_right hfront⟩
    · obtain rfl := job_of_parts m (hlast.trans (by rw [parts_job]))
      exact ⟨rfl, List.append_cancel_right hfront⟩
    · exact absurd hlast (parts_constant σ hσ).2.2.2.2
  · obtain rfl := job_of_parts n (hlast.symm.trans (by rw [parts_job]))
    exact ⟨rfl, List.append_cancel_right hfront⟩
  · obtain ⟨m, rfl⟩ := lock_of_parts hlast.symm
    obtain ⟨hs, rfl⟩ := append_cons_toDigits_inj (by decide) hfront
    exact ⟨rfl, hs⟩

/-- The lowercase form of the text `prefix:name` in front of a suffix. A capital sigma at its
end has a form that depends on the suffix. -/
def queueText (T : CaseTable) (suffix : CollectionSuffix) (keyPrefix name : String) : List Char :=
  T.lowerBetween [] (':' :: suffix.display) (keyPrefix ++ ":" ++ name).toList

theorem toCollectionName_eq_append (T : CaseTable) (suffix : CollectionSuffix)
    (keyPrefix name : String) :
    suffix.toCollectionName T keyPrefix name =
      suffix.queueText T keyPrefix name ++ (suffix.parts.1 ++ ':' :: suffix.parts.2) := by
  rw [toCollectionName_eq, T.toLowercase_append_ascii _ suffix.isAscii_display, lower_display]
  rfl

theorem suffix_eq_of_toCollectionName_eq {T : CaseTable} {σ τ : CollectionSuffix}
    {keyPrefix name keyPrefix' name' : String}
    (h : σ.toCollectionName T keyPrefix name = τ.toCollectionName T keyPrefix' name') : σ = τ := by
  rw [toCollectionName_eq_append, toCollectionName_eq_append] at h
  exact (append_parts_inj h).1

/-- Two collections of one queue share their key just if they are the same: the words, the
numbers of the jobs and those of the locks stay apart whatever stands before them. -/
theorem keys_distinct (T : CaseTable) (keyPrefix name : String) (σ τ : CollectionSuffix) :
    σ.toCollectionName T keyPrefix name = τ.toCollectionName T keyPrefix name ↔ σ = τ := by
  constructor
  · exact suffix_eq_of_toCollectionName_eq
  · rintro rfl
    rfl

/-- Two keys are equal just if they have the same suffix and, in front of it, the texts of the
two queues have the same lowercase form. -/
theorem toCollectionName_eq_iff (T : CaseTable) (σ τ : CollectionSuffix)
    (keyPrefix name keyPrefix' name' : String) :
    σ.toCollectionName T keyPrefix name = τ.toCollectionName T keyPrefix' name' ↔
      σ = τ ∧ σ.queueText T keyPrefix name = σ.queueText T keyPrefix' name' := by
  rw [toCollectionName_eq_append, toCollectionName_eq_append]
  constructor
  · intro h
    obtain ⟨rfl, htext⟩ := append_parts_inj h
    exact ⟨rfl, htext⟩
  · rintro ⟨rfl, htext⟩
    rw [htext]

/-- A colon in a name, and letters that differ in case only: the queues share all their keys. -/
theorem joinedNames_share_keys :
    (("a", "b:c") : String × String) ≠ ("a:b", "c") ∧
      (("kio", "Orders") : String × String) ≠ ("kio", "orders") ∧
      ∀ (T : CaseTable) (suffix : CollectionSuffix),
        suffix.toCollectionName T "a" "b:c" = suffix.toCollectionName T "a:b" "c" ∧
          suffix.toCollectionName T "kio" "Orders" = suffix.toCollectionName T "kio" "orders" := by
  refine ⟨by decide, by decide, fun T suffix => ⟨?_, ?_⟩⟩
  · have htext : "a" ++ ":" ++ "b:c" = "a:b" ++ ":" ++ "c" := by decide
    rw [toCollectionName_eq, toCollectionName_eq, htext]
  · have htext : suffix.queueText T "kio" "Orders" = suffix.queueText T "kio" "orders" := by
      unfold queueText
      rw [T.lowerBetween_ascii _ _ (by decide), T.lowerBetween_ascii _ _ (by decide)]
      decide
    rw [toCollectionName_eq_append, toCollectionName_eq_append, htext]

/-! ### Plain names -/

theorem queueText_eq_self {T : CaseTable} {keyPrefix name : String}
    (h : T.Fixed (keyPrefix ++ ":" ++ name).toList) (suffix : CollectionSuffix) :
    suffix.queueText T keyPrefix name = (keyPrefix ++ ":" ++ name).toList :=
  (T.lowerBetween_eq_self_iff _ _ _).mpr h

theorem text_injective {keyPrefix name keyPrefix' name' : String} (hname : ':' ∉ name.toList)
    (hname' : ':' ∉ name'.toList)
    (h : (keyPrefix ++ ":" ++ name).toList = (keyPrefix' ++ ":" ++ name').toList) :
    keyPrefix = keyPrefix' ∧ name = name' := by
  have hsplit : ∀ p n : String, (p ++ ":" ++ n).toList = p.toList ++ ':' :: n.toList := by simp
  rw [hsplit, hsplit] at h
  obtain ⟨hp, hn⟩ := append_cons_inj hname hname' h
  exact ⟨String.toList_injective hp, String.toList_injective hn⟩

/-- Queues with different prefixes or names share no key, if lowercasing changes neither and
the names have no colon. -/
theorem isolated_of_fixed {T : CaseTable} {keyPrefix name keyPrefix' name' : String}
    (hfixed : T.Fixed (keyPrefix ++ ":" ++ name).toList)
    (hfixed' : T.Fixed (keyPrefix' ++ ":" ++ name').toList) (hname : ':' ∉ name.toList)
    (hname' : ':' ∉ name'.toList) (hne : (keyPrefix, name) ≠ (keyPrefix', name'))
    (σ τ : CollectionSuffix) :
    σ.toCollectionName T keyPrefix name ≠ τ.toCollectionName T keyPrefix' name' := by
  intro h
  rw [toCollectionName_eq_append, toCollectionName_eq_append, queueText_eq_self hfixed,
    queueText_eq_self hfixed'] at h
  obtain ⟨rfl, rfl⟩ := text_injective hname hname' (append_parts_inj h).2
  exact hne rfl

end CollectionSuffix

end Kiomq
