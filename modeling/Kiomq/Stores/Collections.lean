import Kiomq.Jobs.Job
import Mathlib.Data.Prod.Lex

/-!
# The named collections of a store

`CollectionSuffix` names every list, set, hash and key that a queue owns. The
in-memory store files records and locks under the `u64` tag of their suffix. The
model files them under the suffix itself, ordered as the tags are: variant first,
payload second. The two agree for payloads below `2 ^ 56`.
-/

namespace Kiomq

inductive CollectionSuffix
  | active
  | completed
  | delayed
  | stalled
  | prioritized
  | priorityCounter
  | id
  | metaKey
  | events
  | wait
  | paused
  | failed
  | marker
  | job (id : ℕ)
  | prefixKey
  | lock (id : ℕ)
  | stalledCheck
  | workerMetrics
  | processMetrics
  deriving DecidableEq, Repr

namespace CollectionSuffix

def discriminant : CollectionSuffix → ℕ
  | active => 1
  | completed => 2
  | delayed => 3
  | stalled => 4
  | prioritized => 5
  | priorityCounter => 6
  | id => 7
  | metaKey => 8
  | events => 9
  | wait => 10
  | paused => 11
  | failed => 12
  | marker => 13
  | job _ => 14
  | prefixKey => 15
  | lock _ => 16
  | stalledCheck => 17
  | workerMetrics => 18
  | processMetrics => 19

def payload : CollectionSuffix → ℕ
  | job n => n
  | lock n => n
  | _ => 0

def sortKey (s : CollectionSuffix) : ℕ ×ₗ ℕ := toLex (s.discriminant, s.payload)

def ofParts : ℕ → ℕ → CollectionSuffix
  | 1, _ => active
  | 2, _ => completed
  | 3, _ => delayed
  | 4, _ => stalled
  | 5, _ => prioritized
  | 6, _ => priorityCounter
  | 7, _ => id
  | 8, _ => metaKey
  | 9, _ => events
  | 10, _ => wait
  | 11, _ => paused
  | 12, _ => failed
  | 13, _ => marker
  | 14, n => job n
  | 15, _ => prefixKey
  | 16, n => lock n
  | 17, _ => stalledCheck
  | 18, _ => workerMetrics
  | _, _ => processMetrics

theorem ofParts_discriminant (s : CollectionSuffix) : ofParts s.discriminant s.payload = s := by
  cases s <;> rfl

theorem sortKey_injective : Function.Injective sortKey := by
  intro s t h
  have hparts : (s.discriminant, s.payload) = (t.discriminant, t.payload) := h
  obtain ⟨hdiscriminant, hpayload⟩ := Prod.mk.inj hparts
  rw [← ofParts_discriminant s, hdiscriminant, hpayload, ofParts_discriminant]

instance : LinearOrder CollectionSuffix := LinearOrder.lift' sortKey sortKey_injective

/-- The collection that the jobs of a lifecycle state are kept in. -/
def ofJobState : JobState → CollectionSuffix
  | .wait => wait
  | .stalled => paused
  | .paused => paused
  | .active => active
  | .resumed => active
  | .completed => completed
  | .failed => failed
  | .delayed => delayed
  | .progress => prefixKey
  | .prioritized => prioritized
  | .processing => metaKey
  | .obliterated => events

end CollectionSuffix

end Kiomq
