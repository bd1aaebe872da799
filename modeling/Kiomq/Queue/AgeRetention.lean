import Kiomq.Queue.Finishing
import Kiomq.Stores.TimedRuns

/-!
# Retention by age

A policy to keep a record for some seconds sets a deadline for the entry of the record.
`update_expiration_status` does this only for entries that were inserted with a deadline, and
does not ask whether that has passed. The records of the in-memory store are inserted without
one, so the policy has no effect on them; and an expired entry that has not been evicted yet
comes back.
-/

namespace Kiomq

open Foundations

namespace TimedMap

variable {κ V : Type} [LinearOrder κ]

/-- A deadline is set for a key that is visible, and for no other. -/
structure SetsDeadline (m : TimedMap κ V) (key : κ) (duration now : ℕ) : Prop where
  visible : ∀ val, (m.get key now).1 = some val →
    (m.updateExpirationStatus key duration now).1 = some (now + duration) ∧
      ∀ later, now ≤ later → ((m.updateExpirationStatus key duration now).2.get key later).1 =
        if later < now + duration then some val else none
  invisible : (m.get key now).1 = none →
    (m.updateExpirationStatus key duration now).1 = none ∧
      ∀ later, now ≤ later → ((m.updateExpirationStatus key duration now).2.get key later).1 = none

/-- The same whether or not expired entries have been purged before. -/
def SetsDeadlineAnyway (m : TimedMap κ V) (key : κ) (duration now : ℕ) : Prop :=
  m.SetsDeadline key duration now ∧ ∀ reading : κ → ℕ, (∀ k, reading k ≤ now) →
    (m.purgeExpired reading).SetsDeadline key duration now

/-- The key is absent, or its entry has a deadline that has not passed. -/
def Resettable (m : TimedMap κ V) (key : κ) (now : ℕ) : Prop :=
  ∀ found, m.inner.get? key = some found →
    found.isConstant = false ∧ found.isExpired now = false

theorem get_fst_of_some {m : TimedMap κ V} {key : κ} {found : ExpiryValue V}
    (h : m.inner.get? key = some found) (now : ℕ) :
    (m.get key now).1 = if found.isExpired now then none else some found.get := by
  rw [get_fst, visible_content, h, Option.bind_some]

theorem get_fst_of_none {m : TimedMap κ V} {key : κ} (h : m.inner.get? key = none) (now : ℕ) :
    (m.get key now).1 = none := by
  rw [get_fst, visible_content, h, Option.bind_none]

theorem Resettable.setsDeadline {m : TimedMap κ V} {key : κ} {now : ℕ} (h : m.Resettable key now)
    (duration : ℕ) : m.SetsDeadline key duration now := by
  cases hfound : m.inner.get? key with
  | none =>
    have hsame : m.updateExpirationStatus key duration now = (none, m) :=
      m.updateExpirationStatus_of_not_expirable (by simp [hfound]) duration now
    refine ⟨fun val hval => ?_, fun _ => ?_⟩
    · rw [get_fst_of_none hfound] at hval
      cases hval
    · rw [hsame]
      exact ⟨rfl, fun later _ => get_fst_of_none hfound later⟩
  | some found =>
    obtain ⟨hconstant, hlive⟩ := h found hfound
    cases found with
    | constant value => cases hconstant
    | expirable value expiresAt =>
      have hget := get_fst_of_some hfound now
      rw [hlive] at hget
      refine ⟨fun val hval => ?_, fun hnone => ?_⟩
      · obtain rfl : value = val := Option.some.inj (hget.symm.trans hval)
        rw [m.updateExpirationStatus_of_expirable hfound]
        refine ⟨rfl, fun later _ => ?_⟩
        have hreset : (m.inner.insert key (.expirable value (now + duration))).get? key =
            some (.expirable value (now + duration)) := by
          rw [OrderedMap.get?_insert, if_pos rfl]
        refine (get_fst_of_some hreset later).trans ?_
        by_cases hlater : later < now + duration
        · simp [ExpiryValue.isExpired, ExpiryValue.get, hlater]
        · simp [ExpiryValue.isExpired, hlater]
      · rw [hget] at hnone
        cases hnone

theorem SetsDeadline.resettable {m : TimedMap κ V} {key : κ} {duration now : ℕ}
    (h : m.SetsDeadline key duration now) : m.Resettable key now := by
  intro found hfound
  have hget := get_fst_of_some hfound now
  cases found with
  | constant value =>
    -- A constant entry is visible, and no deadline is set for it.
    have hset := (h.visible value hget).1
    rw [m.updateExpirationStatus_of_not_expirable (by simp [hfound])] at hset
    cases hset
  | expirable value expiresAt =>
    refine ⟨rfl, ?_⟩
    by_contra hexpired
    rw [Bool.not_eq_false] at hexpired
    rw [if_pos hexpired] at hget
    have hset := (h.invisible hget).1
    rw [m.updateExpirationStatus_of_expirable hfound] at hset
    cases hset

theorem Resettable.purgeExpired {m : TimedMap κ V} {key : κ} {now : ℕ} (h : m.Resettable key now)
    (reading : κ → ℕ) : (m.purgeExpired reading).Resettable key now := by
  intro found hfound
  unfold TimedMap.purgeExpired at hfound
  split_ifs at hfound
  · exact h found hfound
  · rw [get?_unexpired, Option.filter_eq_some_iff] at hfound
    exact h found hfound.1

theorem setsDeadlineAnyway_iff (m : TimedMap κ V) (key : κ) (duration now : ℕ) :
    m.SetsDeadlineAnyway key duration now ↔ m.Resettable key now := by
  constructor
  · exact fun h => h.1.resettable
  · exact fun h => ⟨h.setsDeadline duration,
      fun reading _ => (h.purgeExpired reading).setsDeadline duration⟩

end TimedMap

variable {D R P : Type}

namespace Queue

/-- A job that is cleaned up with the policy to keep it for `secs` seconds is gone after them. -/
def GoneAfterAge (q : Queue D R P) (jobId : ℕ) (secs : ℤ) (count : Option ℤ) (clock : Clock) :
    Prop :=
  ∀ later : ℕ, (clock.instant : ℤ) + 1000 * secs ≤ later →
    ((q.cleanUpJob jobId (some (.opts ⟨some secs, count⟩)) clock).store.jobs.map.get
      (.job jobId) later).1 = none

/-- The record goes if the count removes it at once; the age does nothing. -/
theorem get_cleanUpJob_age (q : Queue D R P) (jobId : ℕ) (secs : ℤ) (count : Option ℤ)
    (clock : Clock) :
    (q.cleanUpJob jobId (some (.opts ⟨some secs, count⟩)) clock).store.jobs.get (.job jobId) =
      if count.any (exceedsCount jobId) then none else q.store.jobs.get (.job jobId) := by
  simp only [cleanUpJob, Option.elim_some, InMemoryStore.expire]
  split_ifs with hcount
  · simp [InMemoryStore.remove, RecordMap.get_remove]
  · rfl

theorem goneAfterAge_iff (q : Queue D R P) (jobId : ℕ) (secs : ℤ) (count : Option ℤ)
    (clock : Clock) : q.GoneAfterAge jobId secs count clock ↔
      q.store.jobs.get (.job jobId) = none ∨ count.any (exceedsCount jobId) = true := by
  unfold GoneAfterAge
  simp only [RecordMap.timedMap_get, get_cleanUpJob_age]
  constructor
  · intro h
    have hnone := h (clock.instant + 1000 * secs.toNat) (by push_cast; omega)
    split_ifs at hnone with hcount
    · exact Or.inr hcount
    · exact Or.inl hnone
  · rintro (hnone | hcount) later _
    · rw [hnone, ite_self]
    · rw [if_pos hcount]

/-- A deadline is set for what is visible and nothing else just if the entry has a deadline that
has not passed; and a job is gone after its age just if it had no record or the count removed
it. -/
theorem deadlines_set_iff {κ V : Type} [LinearOrder κ] (m : TimedMap κ V) (key : κ)
    (duration now : ℕ) (q : Queue D R P) (jobId : ℕ) (secs : ℤ) (count : Option ℤ)
    (clock : Clock) :
    (m.SetsDeadlineAnyway key duration now ↔ m.Resettable key now) ∧
      (q.GoneAfterAge jobId secs count clock ↔
        q.store.jobs.get (.job jobId) = none ∨ count.any (exceedsCount jobId) = true) :=
  ⟨m.setsDeadlineAnyway_iff key duration now, q.goneAfterAge_iff jobId secs count clock⟩

/-- A constant entry takes no deadline; an entry that expired at 10 is given the deadline 25 at
20 and is visible again, unless it has been purged; and a completed job with an age of one
second has its record after two. -/
theorem deadlines_not_set :
    let constant := (TimedMap.new : TimedMap ℕ ℕ).insertConstant 1 7
    let expired := (TimedMap.new : TimedMap ℕ ℕ).insertExpirable 1 7 10 0
    let q := oneActive.cleanUpJob 1 (some (.opts ⟨some 1, none⟩)) ⟨0, 0⟩
    (constant.updateExpirationStatus 1 5 20).1 = none ∧
      ((constant.updateExpirationStatus 1 5 20).2.get 1 30).1 = some 7 ∧
      (expired.get 1 20).1 = none ∧
      (expired.updateExpirationStatus 1 5 20).1 = some 25 ∧
      ((expired.updateExpirationStatus 1 5 20).2.get 1 24).1 = some 7 ∧
      ((expired.purgeExpired fun _ => 15).updateExpirationStatus 1 5 20).1 = none ∧
      (q.store.jobs.map.get (.job 1) 2000).1.isSome = true ∧
      ¬ constant.SetsDeadlineAnyway 1 5 20 ∧ ¬ expired.SetsDeadlineAnyway 1 5 20 ∧
      ¬ oneActive.GoneAfterAge 1 1 none ⟨0, 0⟩ := by
  refine ⟨rfl, rfl, rfl, rfl, rfl, rfl, by decide +kernel, fun h => ?_, fun h => ?_, fun h => ?_⟩
  · exact absurd (h.1.visible 7 rfl).1 (by decide)
  · exact absurd (h.1.invisible rfl).1 (by decide)
  · have hgone := h 2000 (by decide)
    revert hgone
    decide +kernel

end Queue

end Kiomq
