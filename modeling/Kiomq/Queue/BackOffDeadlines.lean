import Kiomq.Queue.Queue

/-!
# Deadlines of the exponential backoff

The built-in strategy computes `2 ^ attempts * delay` on `i64`. The number of attempts is an
`u64` that is cast to `i64` and then to `u32`; the power, the product and the addition to the
current date each have a bound of their own. The bounds on the attempts and on the date decide
whether all goes well, and the deadline is then the one that the formula gives.
-/

namespace Kiomq

namespace BackOff

/-- An `i64` operation that overflows has no result. -/
def checkedI64 (x : ℤ) : Option ℤ := if -2 ^ 63 ≤ x ∧ x < 2 ^ 63 then some x else none

def exponent (attempts : ℤ) : ℕ :=
  if 0 ≤ attempts ∧ attempts < 2 ^ 32 then attempts.toNat else 2 ^ 32 - 1

def exponentialChecked (delay attempts : ℤ) : Option ℤ :=
  (checkedI64 (2 ^ exponent attempts)).bind fun power => checkedI64 (power * delay)

theorem checkedI64_eq_some_iff (x y : ℤ) :
    checkedI64 x = some y ↔ (-2 ^ 63 ≤ x ∧ x < 2 ^ 63) ∧ x = y := by
  unfold checkedI64
  by_cases h : -2 ^ 63 ≤ x ∧ x < 2 ^ 63
  · rw [if_pos h, Option.some.injEq]
    exact ⟨fun heq => ⟨h, heq⟩, And.right⟩
  · rw [if_neg h]
    exact ⟨nofun, fun hfits => absurd hfits.1 h⟩

theorem exponential_of_checked {delay attempts value : ℤ}
    (h : exponentialChecked delay attempts = some value) :
    exponential delay attempts = value ∧ exponent attempts < 63 ∧
      value = 2 ^ exponent attempts * delay := by
  obtain ⟨power, hpower, hvalue⟩ := Option.bind_eq_some_iff.mp h
  obtain ⟨⟨-, hlt⟩, rfl⟩ := (checkedI64_eq_some_iff ..).mp hpower
  obtain ⟨⟨hlo, hhi⟩, rfl⟩ := (checkedI64_eq_some_iff ..).mp hvalue
  exact ⟨wrapI64_of_fits hlo hhi, (pow_lt_pow_iff_right₀ one_lt_two).mp hlt, rfl⟩

/-- The conversions leave small numbers of attempts, and no others small. -/
theorem exponent_castSigned {attempts : ℕ} (h : attempts < 2 ^ 64)
    (hsmall : exponent (castSigned attempts) < 63) : exponent (castSigned attempts) = attempts := by
  unfold exponent castSigned at hsmall ⊢
  split_ifs at hsmall ⊢ <;> omega

theorem exponent_of_lt {attempts : ℕ} (h : attempts < 63) :
    exponent (castSigned attempts) = attempts := by
  unfold exponent castSigned
  split_ifs <;> omega

theorem exponentialChecked_of_fits {delay : ℤ} {attempts : ℕ} (hdelay : 0 ≤ delay)
    (hattempts : attempts < 63) (hfits : 2 ^ attempts * delay < 2 ^ 63) :
    exponentialChecked delay (castSigned attempts) = some (2 ^ attempts * delay) := by
  have hpower : checkedI64 (2 ^ attempts) = some (2 ^ attempts) := by
    rw [checkedI64_eq_some_iff]
    have hlt : (2 : ℤ) ^ attempts < 2 ^ 63 := (pow_lt_pow_iff_right₀ one_lt_two).mpr hattempts
    have hpos : (0 : ℤ) < 2 ^ attempts := by positivity
    exact ⟨⟨by omega, hlt⟩, rfl⟩
  rw [exponentialChecked, exponent_of_lt hattempts, hpower, Option.bind_some,
    checkedI64_eq_some_iff]
  have hnonneg : 0 ≤ 2 ^ attempts * delay := by positivity
  exact ⟨⟨by omega, hfits⟩, rfl⟩

end BackOff

open BackOff

variable {D R P : Type}

namespace Queue

def exponentialOpts (delay : ℤ) : BackOffJobOptions := .opts ⟨some "exponential", some delay⟩

/-- The strategy for one number of attempts: nothing overflows, the value is that of the formula
or a bound that the formula exceeds, it is not below the value before, and both users of it get a
deadline that is a date and not in the past. -/
structure BackOffSound (q : Queue D R P) (jobId : ℕ) (delay : ℤ) (attempts : ℕ) (bound : ℤ)
    (clock : Clock) : Prop where
  checked : (exponentialChecked delay (castSigned attempts)).isSome = true
  value : exponential delay (castSigned attempts) = 2 ^ attempts * delay ∨
    bound ≤ 2 ^ attempts * delay ∧ exponential delay (castSigned attempts) = bound
  monotone : 1 ≤ attempts →
    exponential delay (castSigned (attempts - 1)) ≤ exponential delay (castSigned attempts)
  retried : ∃ deadline, clock.utc ≤ deadline ∧ deadline ≤ Dt.maxUtc ∧
    q.retryFailed jobId (exponentialOpts delay) attempts clock = (.ok (), { q with
      store := (q.store.addItem .delayed jobId (some (Dt.timestampMillis deadline)) false
        ).removeItem .failed jobId })
  repeated : ∃ deadline, clock.utc ≤ deadline ∧ deadline ≤ Dt.maxUtc ∧
    (Repeat.withBackOff (exponentialOpts delay)).nextOccurrence q.backoff attempts clock.utc =
      .ok (some (Dt.timestampMillis deadline))

/-- There are fewer than 63 attempts, and the deadline is before the end of time. -/
def DeadlineInRange (delay : ℤ) (attempts : ℕ) (clock : Clock) : Prop :=
  attempts < 63 ∧ clock.utc + 1000 * (2 ^ attempts * delay) ≤ Dt.maxUtc

instance (delay : ℤ) (attempts : ℕ) (clock : Clock) :
    Decidable (DeadlineInRange delay attempts clock) :=
  inferInstanceAs (Decidable (_ ∧ _))

section

variable {q : Queue D R P} (hbuiltin : q.backoff.builtinStrategies "exponential" = some exponential)
include hbuiltin

theorem retryFailed_exponential (jobId : ℕ) (delay : ℤ) (attempts : ℕ) (clock : Clock) :
    q.retryFailed jobId (exponentialOpts delay) attempts clock =
      match clock.utc.addMillis (exponential delay (castSigned attempts)) with
      | .error e => (.error e, q)
      | .ok deadline => (.ok (), { q with
          store := (q.store.addItem .delayed jobId (some (Dt.timestampMillis deadline)) false
            ).removeItem .failed jobId }) := by
  have hdelay : q.calculateNextDelayMs (exponentialOpts delay) (castSigned attempts) =
      some (exponential delay (castSigned attempts)) := by
    simp [calculateNextDelayMs, exponentialOpts, BackOff.normalize, calculate, lookupStrategy,
      hbuiltin]
  unfold retryFailed
  rewrite [hdelay]
  rfl

theorem nextOccurrence_exponential (delay : ℤ) (attempts : ℕ) (now : Dt) :
    (Repeat.withBackOff (exponentialOpts delay)).nextOccurrence q.backoff attempts now =
      (now.addMillis (exponential delay (castSigned attempts))).map fun next =>
        some next.timestampMillis := by
  simp [Repeat.nextOccurrence, exponentialOpts, BackOff.normalize, lookupStrategy, hbuiltin]

end

theorem delay_fits {now ms : ℤ} (hlo : -8334601228800000000 ≤ now) (hms : 0 ≤ ms)
    (hdate : now + 1000 * ms ≤ 8210266876799999999) : ms < 2 ^ 63 ∧ now ≤ now + 1000 * ms := by
  omega

/-- The exponential backoff is sound just for fewer than 63 attempts and a deadline within the
range of dates. -/
theorem backOff_sound_iff {q : Queue D R P}
    (hbuiltin : q.backoff.builtinStrategies "exponential" = some exponential) (jobId : ℕ)
    {delay : ℤ} (hdelay : 0 ≤ delay) {attempts maxAttempts : ℕ} (hlt : attempts < maxAttempts)
    (hmax : maxAttempts < 2 ^ 64) (bound : ℤ) {clock : Clock} (hlo : Dt.minUtc ≤ clock.utc) :
    q.BackOffSound jobId delay attempts bound clock ↔ DeadlineInRange delay attempts clock := by
  constructor
  · intro h
    obtain ⟨value, hchecked⟩ := Option.isSome_iff_exists.mp h.checked
    obtain ⟨hvalue, hsmall, hformula⟩ := exponential_of_checked hchecked
    have hexponent := exponent_castSigned (hlt.trans hmax) hsmall
    rw [hexponent] at hsmall hformula
    refine ⟨hsmall, ?_⟩
    obtain ⟨deadline, -, hdeadline, hnext⟩ := h.repeated
    rw [nextOccurrence_exponential hbuiltin, hvalue, hformula] at hnext
    unfold Dt.addMillis at hnext
    split_ifs at hnext with hrange
    · exact hrange.2
    · cases hnext
  · rintro ⟨hsmall, hdate⟩
    have hnonneg : 0 ≤ 2 ^ attempts * delay := by positivity
    obtain ⟨hfits, hlater⟩ := delay_fits hlo hnonneg hdate
    have hchecked := exponentialChecked_of_fits hdelay hsmall hfits
    have hvalue := (exponential_of_checked hchecked).1
    have hadd : clock.utc.addMillis (exponential delay (castSigned attempts)) =
        .ok (clock.utc + 1000 * (2 ^ attempts * delay)) := by
      rw [hvalue, Dt.addMillis, if_pos ⟨hlo.trans hlater, hdate⟩]
    refine ⟨by rw [hchecked]; rfl, Or.inl hvalue, fun hone => ?_, ?_, ?_⟩
    · obtain ⟨before, rfl⟩ := Nat.exists_eq_add_of_le' hone
      have hhalf : (2 : ℤ) ^ (before + 1) * delay = 2 * (2 ^ before * delay) := by ring
      have hbefore := exponentialChecked_of_fits hdelay (by omega : before < 63)
        (by have : 0 ≤ 2 ^ before * delay := by positivity
            omega)
      rw [hvalue, Nat.add_sub_cancel, (exponential_of_checked hbefore).1]
      omega
    · refine ⟨_, hlater, hdate, ?_⟩
      rw [retryFailed_exponential hbuiltin, hadd]
    · refine ⟨_, hlater, hdate, ?_⟩
      rw [nextOccurrence_exponential hbuiltin, hadd]
      rfl

/-- The second retry with a base delay of one second. -/
theorem second_backOff_sound :
    DeadlineInRange 1000 1 ⟨0, 0⟩ ∧
      BackOffSound (Queue.new (.new none "mail") none 1 : Queue Unit Unit Unit) 1 1000 1 0
        ⟨0, 0⟩ := by
  have hrange : DeadlineInRange 1000 1 ⟨0, 0⟩ := by decide
  exact ⟨hrange, (backOff_sound_iff rfl 1 (by decide) (by decide : 1 < 3) (by decide) 0
    (by decide)).mpr hrange⟩

/-- With a base delay of 100 milliseconds the value for 57 attempts is negative, and the addition
to the date panics; with 256 milliseconds the value for 56 attempts is zero; and long before
that, the deadline of 48 attempts is no date. -/
theorem backOff_wraps :
    exponential 100 57 = -7 * 2 ^ 59 ∧ exponentialChecked 100 57 = none ∧
      exponential 256 56 = 0 ∧ exponential 256 56 < exponential 256 54 ∧
      exponential 100 48 = 100 * 2 ^ 48 ∧
      Dt.addMillis 0 (exponential 100 48) =
        .error (.panicked "`DateTime + TimeDelta` overflowed") ∧
      ¬ BackOffSound (Queue.new (.new none "mail") none 1 : Queue Unit Unit Unit) 1 100 57 0
        ⟨0, 0⟩ := by
  refine ⟨by decide +kernel, by decide +kernel, by decide +kernel, by decide +kernel,
    by decide +kernel, by decide +kernel, fun h => ?_⟩
  have hchecked := h.checked
  revert hchecked
  decide +kernel

end Queue

end Kiomq
