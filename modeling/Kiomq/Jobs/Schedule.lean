import Mathlib.Data.Int.Basic
import Mathlib.Tactic

/-!
# Time, delays, backoff and repeat policies

A `DateTime<Utc>` is its number of microseconds since the Unix epoch. Date
arithmetic that leaves the range of `chrono`, and a cron expression without a next
occurrence, make the source panic; the model reports `KioError.panicked`, so that
a caller keeps the state it had built up to that point. Integer overflow wraps, as
it does in a release build: the manifest sets no overflow checks.
-/

namespace Kiomq

/-- The errors that the modelled functions return; a panic counts as one. -/
inductive KioError
  | jobNotFound
  | delayBelowAllowedLimit (limitMs currentMs : ℕ)
  | panicked (message : String)
  deriving DecidableEq, Repr

abbrev KioResult (α : Type*) := Except KioError α

/-! ### Machine integers -/

def castUnsigned (x : ℤ) : ℕ := (x % 2 ^ 64).toNat

def castSigned (n : ℕ) : ℤ := if n < 2 ^ 63 then n else n - 2 ^ 64

theorem castUnsigned_of_nonneg {x : ℤ} (h : 0 ≤ x) (hx : x < 2 ^ 63) :
    castUnsigned x = x.toNat := by
  unfold castUnsigned
  rw [Int.emod_eq_of_lt h (by omega)]

/-- A negative `i64` becomes a `u64` in the upper half of the range. -/
theorem castUnsigned_of_neg {x : ℤ} (h : x < 0) (hx : -2 ^ 63 ≤ x) :
    castUnsigned x = (2 ^ 64 + x).toNat := by
  unfold castUnsigned
  rw [← Int.add_emod_left, Int.emod_eq_of_lt (by omega) (by omega)]

/-- The `i64` that an exact result wraps to. -/
def wrapI64 (x : ℤ) : ℤ := castSigned (castUnsigned x)

theorem wrapI64_of_fits {x : ℤ} (hlo : -2 ^ 63 ≤ x) (hhi : x < 2 ^ 63) : wrapI64 x = x := by
  unfold wrapI64 castSigned
  by_cases hx : 0 ≤ x
  · rw [castUnsigned_of_nonneg hx hhi]
    split_ifs <;> omega
  · rw [castUnsigned_of_neg (by omega) hlo]
    split_ifs <;> omega

/-- `n - 1` on `u64`, which wraps at zero. -/
def predU64 (n : ℕ) : ℕ := if n = 0 then 2 ^ 64 - 1 else n - 1

@[simp] theorem predU64_succ (n : ℕ) : predU64 (n + 1) = n := rfl

/-! ### Time -/

abbrev Dt := ℤ

/-- The extreme instants of `chrono`, `-262143-01-01` and `+262142-12-31`. -/
def Dt.minUtc : Dt := -8334601228800000000

def Dt.maxUtc : Dt := 8210266876799999999

def Dt.timestampMillis (t : Dt) : ℤ := t / 1000

def Dt.timestampMicros (t : Dt) : ℤ := t

def Dt.fromTimestampMicros (micros : ℤ) : Option Dt :=
  if Dt.minUtc ≤ micros ∧ micros ≤ Dt.maxUtc then some micros else none

/-- `t + TimeDelta::milliseconds(ms)`, which panics outside of the range of `chrono`. -/
def Dt.addMillis (t : Dt) (ms : ℤ) : KioResult Dt :=
  if Dt.minUtc ≤ t + 1000 * ms ∧ t + 1000 * ms ≤ Dt.maxUtc then .ok (t + 1000 * ms)
  else .error (.panicked "`DateTime + TimeDelta` overflowed")

/-- One reading of the clocks: `Utc::now()` in microseconds and `Instant::now()` in
milliseconds. -/
structure Clock where
  utc : Dt
  instant : ℕ
  deriving DecidableEq, Repr

/-- A cron schedule is its next-occurrence function; an occurrence lies strictly
after the instant it is searched from. -/
structure Cron where
  findNextOccurrence : Dt → Option Dt
  later : ∀ t u, findNextOccurrence t = some u → t < u

/-- Minimum acceptable delay in milliseconds, also the interval of promotions. -/
def minDelayMsLimit : ℕ := 50

/-! ### Delays -/

inductive JobDelay
  | timeMilis (ms : ℤ)
  | fromCron (cron : Cron)

namespace JobDelay

instance : Inhabited JobDelay := ⟨.timeMilis 0⟩

/-- The millisecond timestamp at which the job becomes eligible; `none` for a delay
that is not positive. -/
def nextOccurranceTimestampMs (delay : JobDelay) (now : Dt) : KioResult (Option ℤ) :=
  match delay with
  | .timeMilis ms =>
    if ms ≤ 0 then .ok none
    else (now.addMillis ms).map fun next => some next.timestampMillis
  | .fromCron cron => .ok ((cron.findNextOccurrence now).map Dt.timestampMillis)

/-- The delay in milliseconds relative to `dt`. -/
def asDiffMs (delay : JobDelay) (dt : Dt) : KioResult ℤ :=
  match delay with
  | .timeMilis ms => .ok ms
  | .fromCron cron =>
    match cron.findNextOccurrence dt with
    | some next => .ok (Int.tdiv (next - dt) 1000)
    | none => .error (.panicked "failed")

end JobDelay

/-! ### Backoff -/

structure BackOffOptions where
  type : Option String
  delay : Option ℤ
  deriving DecidableEq, Repr

inductive BackOffJobOptions
  | number (ms : ℤ)
  | opts (o : BackOffOptions)
  deriving DecidableEq, Repr

abbrev StoredFn := ℤ → ℤ

/-- The registry of strategies: a name is mapped to a factory that receives the
base delay. -/
structure BackOff where
  builtinStrategies : String → Option (ℤ → StoredFn)

namespace BackOff

def register (b : BackOff) (name : String) (strategy : ℤ → StoredFn) : BackOff :=
  ⟨Function.update b.builtinStrategies name (some strategy)⟩

/-- `2_i64.pow(u32::try_from(attempts).unwrap_or(u32::MAX)) * delay`. -/
def exponential (delay attempts : ℤ) : ℤ :=
  let exponent := if 0 ≤ attempts ∧ attempts < 2 ^ 32 then attempts.toNat else 2 ^ 32 - 1
  wrapI64 (2 ^ exponent * delay)

def fixed (delay _attempts : ℤ) : ℤ := delay

def new : BackOff :=
  ((⟨fun _ => none⟩ : BackOff).register "exponential" exponential).register "fixed" fixed

/-- `None` when no backoff is configured or the numeric delay is zero. -/
def normalize (backoff : Option BackOffJobOptions) : Option BackOffOptions :=
  backoff.bind fun
    | .number num => if num = 0 then none else some ⟨some "fixed", some num⟩
    | .opts o => some o

def lookupStrategy (b : BackOff) (backoff : BackOffOptions) (customStrategy : Option StoredFn) :
    Option StoredFn :=
  match backoff.type.bind b.builtinStrategies, backoff.delay with
  | some strategy, some delay => some (strategy delay)
  | _, _ => customStrategy

def calculate (b : BackOff) (backoffOpts : Option BackOffOptions) (attempts : ℤ)
    (customStrategy : Option StoredFn) : Option ℤ :=
  backoffOpts.bind fun opts =>
    (b.lookupStrategy opts customStrategy).map fun strategy => strategy attempts

end BackOff

/-! ### Repeat policies -/

inductive Repeat
  | withCron (cron : Cron)
  | withBackOff (opts : BackOffJobOptions)
  | every (delayMs : ℤ) (maxAttempts : Option ℕ)
  | immediately (maxAttempts : ℕ)

/-- The timestamp in milliseconds of the next run, or `none` when the policy is
exhausted. The value `0` means: move to the wait list at once. -/
def Repeat.nextOccurrence (r : Repeat) (backoff : BackOff) (attempts : ℕ) (now : Dt) :
    KioResult (Option ℤ) :=
  match r with
  | .withCron cron => .ok ((cron.findNextOccurrence now).map Dt.timestampMillis)
  | .withBackOff opts =>
    match (BackOff.normalize (some opts)).bind fun o => backoff.lookupStrategy o none with
    | none => .ok none
    | some delayFn =>
      (now.addMillis (delayFn (castSigned attempts))).map fun next => some next.timestampMillis
  | .every delayMs maxAttempts =>
    if maxAttempts.any fun maxTs => maxTs ≤ attempts then .ok none
    else (now.addMillis delayMs).map fun next => some next.timestampMillis
  | .immediately maxAttempts => if maxAttempts ≤ attempts then .ok none else .ok (some 0)

end Kiomq
