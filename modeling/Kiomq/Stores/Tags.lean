import Kiomq.Stores.Collections

/-!
# The tags of the collections

A tag is a number of 64 bits: the variant in the upper eight, the number of the job in the lower
56. The decoder has its own table of variants, which ends before the two kinds of metrics. For
numbers of jobs that fit, tags are ordered as the suffixes are, so that a map under tags and one
under suffixes hold the same entries in the same order.
-/

namespace Kiomq

namespace CollectionSuffix

def payloadMask : ℕ := 0x00FFFFFFFFFFFFFF

def tag (s : CollectionSuffix) : ℕ :=
  let top := s.discriminant <<< 56
  match s with
  | job jobId => top ||| (jobId &&& payloadMask)
  | lock jobId => top ||| (jobId &&& payloadMask)
  | _ => top

/-- The variants from 18 on are unknown to the decoder. -/
def fromTag (tag : ℕ) : Option CollectionSuffix :=
  let disc := (tag >>> 56) % 2 ^ 8
  let payload := tag &&& payloadMask
  match disc with
  | 1 => some active
  | 2 => some completed
  | 3 => some delayed
  | 4 => some stalled
  | 5 => some prioritized
  | 6 => some priorityCounter
  | 7 => some id
  | 8 => some metaKey
  | 9 => some events
  | 10 => some wait
  | 11 => some paused
  | 12 => some failed
  | 13 => some marker
  | 14 => some (job payload)
  | 15 => some prefixKey
  | 16 => some (lock payload)
  | 17 => some stalledCheck
  | _ => none

theorem and_payloadMask (n : ℕ) : n &&& payloadMask = n % 2 ^ 56 :=
  Nat.and_two_pow_sub_one_eq_mod n 56

theorem top_or_payload (d n : ℕ) :
    d <<< 56 ||| (n &&& payloadMask) = 2 ^ 56 * d + n % 2 ^ 56 := by
  rw [and_payloadMask, Nat.shiftLeft_eq, Nat.mul_comm,
    ← Nat.two_pow_add_eq_or_of_lt (Nat.mod_lt n (by positivity))]

theorem tag_eq (s : CollectionSuffix) :
    s.tag = 2 ^ 56 * s.discriminant + s.payload % 2 ^ 56 := by
  cases s with
  | job jobId => exact top_or_payload 14 jobId
  | lock jobId => exact top_or_payload 16 jobId
  | _ => rfl

theorem discriminant_lt (s : CollectionSuffix) : s.discriminant < 2 ^ 8 := by
  cases s <;> simp [discriminant]

theorem fromTag_parts {d p : ℕ} (hd : d < 2 ^ 8) (hp : p < 2 ^ 56) :
    fromTag (2 ^ 56 * d + p) = if 1 ≤ d ∧ d ≤ 17 then some (ofParts d p) else none := by
  have hdisc : ((2 ^ 56 * d + p) >>> 56) % 2 ^ 8 = d := by
    rw [Nat.shiftRight_eq_div_pow]
    omega
  have hpayload : (2 ^ 56 * d + p) &&& payloadMask = p := by
    rw [and_payloadMask]
    omega
  unfold fromTag
  simp only [hdisc, hpayload]
  split
  case h_18 =>
    clear hdisc hpayload
    rw [if_neg]
    rintro ⟨hlo, hhi⟩
    interval_cases d <;> contradiction
  all_goals rfl

theorem fromTag_tag (s : CollectionSuffix) :
    fromTag s.tag = if s.discriminant ≤ 17 then
      some (ofParts s.discriminant (s.payload % 2 ^ 56)) else none := by
  have hpos : 1 ≤ s.discriminant := by cases s <;> simp [discriminant]
  rw [tag_eq, fromTag_parts s.discriminant_lt (Nat.mod_lt _ (by positivity))]
  simp only [hpos, true_and]

theorem fromTag_tag_eq_some_iff (s : CollectionSuffix) :
    fromTag s.tag = some s ↔ s.payload < 2 ^ 56 ∧ s ≠ workerMetrics ∧ s ≠ processMetrics := by
  rw [fromTag_tag]
  cases s with
  | job jobId => simp [discriminant, payload, ofParts]
  | lock jobId => simp [discriminant, payload, ofParts]
  | _ => decide

/-- What is decoded from a tag has that tag, also where the number was cut off. -/
theorem tag_of_fromTag_tag {r s : CollectionSuffix} (h : fromTag s.tag = some r) :
    r.tag = s.tag := by
  rw [fromTag_tag] at h
  split_ifs at h
  obtain rfl := Option.some.inj h
  cases s with
  | job jobId => simp [tag_eq, discriminant, payload, ofParts]
  | lock jobId => simp [tag_eq, discriminant, payload, ofParts]
  | _ => rfl

theorem tag_lt_tag_iff {s t : CollectionSuffix} (hs : s.payload < 2 ^ 56)
    (ht : t.payload < 2 ^ 56) : s.tag < t.tag ↔ s < t := by
  have hlt : s < t ↔ s.discriminant < t.discriminant ∨
      s.discriminant = t.discriminant ∧ s.payload < t.payload := Prod.Lex.toLex_lt_toLex
  rw [hlt, tag_eq, tag_eq, Nat.mod_eq_of_lt hs, Nat.mod_eq_of_lt ht]
  omega

theorem strictMonoOn_tag : StrictMonoOn tag {s | s.payload < 2 ^ 56} :=
  fun _ hs _ ht => (tag_lt_tag_iff hs ht).mpr

theorem tag_injOn : Set.InjOn tag {s | s.payload < 2 ^ 56} := strictMonoOn_tag.injOn

/-- The suffix with the same tag whose number fits. -/
def fitted : CollectionSuffix → CollectionSuffix
  | job jobId => job (jobId % 2 ^ 56)
  | lock jobId => lock (jobId % 2 ^ 56)
  | s => s

theorem tag_fitted (s : CollectionSuffix) : s.fitted.tag = s.tag := by
  cases s with
  | job jobId => simp [tag_eq, fitted, discriminant, payload]
  | lock jobId => simp [tag_eq, fitted, discriminant, payload]
  | _ => rfl

theorem payload_fitted_lt (s : CollectionSuffix) : s.fitted.payload < 2 ^ 56 := by
  cases s with
  | job jobId => exact Nat.mod_lt _ (by positivity)
  | lock jobId => exact Nat.mod_lt _ (by positivity)
  | _ => exact Nat.two_pow_pos 56

/-- The tag of a suffix is decoded, a tag that is decoded to the suffix is the one it has, and no
other suffix with a number that fits has its tag. -/
structure Decodes (s : CollectionSuffix) : Prop where
  decoded : fromTag s.tag = some s
  recoded : ∀ t, fromTag t = some s → t ∈ Set.range tag → s.tag = t
  apart : ∀ r, r.payload < 2 ^ 56 → r.tag = s.tag → r = s

/-- The tag of a suffix whose number fits serves its purpose unless it is one of the metrics. -/
theorem tags_decode_iff (s : CollectionSuffix) :
    s.Decodes ↔ s.payload < 2 ^ 56 ∧ s ≠ workerMetrics ∧ s ≠ processMetrics := by
  constructor
  · intro h
    exact (fromTag_tag_eq_some_iff s).mp h.decoded
  · intro h
    refine ⟨(fromTag_tag_eq_some_iff s).mpr h, ?_, fun r hr => tag_injOn hr h.1⟩
    rintro _ hdecoded ⟨r, rfl⟩
    exact tag_of_fromTag_tag hdecoded

/-- The decoder does not know the tags of the metrics. -/
theorem metrics_not_decoded :
    (workerMetrics.payload < 2 ^ 56 ∧ fromTag workerMetrics.tag = none ∧ ¬ workerMetrics.Decodes) ∧
      processMetrics.payload < 2 ^ 56 ∧ fromTag processMetrics.tag = none ∧
        ¬ processMetrics.Decodes := by
  refine ⟨⟨by decide, rfl, fun h => ?_⟩, by decide, rfl, fun h => ?_⟩
  · cases h.decoded
  · cases h.decoded

end CollectionSuffix

end Kiomq
