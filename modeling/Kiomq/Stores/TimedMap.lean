import Kiomq.Stores.Collections
import Kiomq.Foundations.OrderedMap

/-!
# Maps whose entries may expire

An entry is constant, or it carries a deadline. Reading an expired entry evicts it,
so a read returns the map it leaves behind as well. The job records of the
in-memory store are only ever inserted as constant entries; `RecordMap` carries
this fact, and with it a read, or setting a deadline, is shown to leave the map as
it was.
-/

namespace Kiomq

open Foundations

/-- A stored value; instants are in milliseconds. -/
inductive ExpiryValue (V : Type)
  | constant (value : V)
  | expirable (value : V) (expiresAt : ℕ)

namespace ExpiryValue

variable {V : Type}

def isExpired (e : ExpiryValue V) (now : ℕ) : Bool :=
  match e with
  | constant _ => false
  | expirable _ expiresAt => decide (expiresAt ≤ now)

def get : ExpiryValue V → V
  | constant value => value
  | expirable value _ => value

def isConstant : ExpiryValue V → Bool
  | constant _ => true
  | expirable _ _ => false

/-- Mutation of the value behind its mutex; the deadline is not touched. -/
def map (f : V → V) : ExpiryValue V → ExpiryValue V
  | constant value => constant (f value)
  | expirable value expiresAt => expirable (f value) expiresAt

@[simp] theorem isConstant_map (f : V → V) (e : ExpiryValue V) :
    (e.map f).isConstant = e.isConstant := by cases e <;> rfl

@[simp] theorem get_map (f : V → V) (e : ExpiryValue V) : (e.map f).get = f e.get := by
  cases e <;> rfl

theorem isExpired_of_isConstant {e : ExpiryValue V} (h : e.isConstant = true) (now : ℕ) :
    e.isExpired now = false := by
  cases e with
  | constant value => rfl
  | expirable value expiresAt => simp [isConstant] at h

end ExpiryValue

structure TimedMap (κ V : Type) [LinearOrder κ] where
  inner : OrderedMap κ (ExpiryValue V)
  disableExpiration : Bool

namespace TimedMap

variable {κ V : Type} [LinearOrder κ]

def new : TimedMap κ V := ⟨.empty, false⟩

def toggleExpiration (m : TimedMap κ V) : TimedMap κ V :=
  { m with disableExpiration := !m.disableExpiration }

def insertConstant (m : TimedMap κ V) (key : κ) (val : V) : TimedMap κ V :=
  { m with inner := m.inner.insert key (.constant val) }

def insertExpirable (m : TimedMap κ V) (key : κ) (val : V) (timeout now : ℕ) : TimedMap κ V :=
  if m.disableExpiration then m.insertConstant key val
  else { m with inner := m.inner.insert key (.expirable val (now + timeout)) }

def remove (m : TimedMap κ V) (key : κ) : TimedMap κ V := { m with inner := m.inner.remove key }

/-- The value, if the key is present and not expired; an expired entry is evicted. -/
def get (m : TimedMap κ V) (key : κ) (now : ℕ) : Option V × TimedMap κ V :=
  match m.inner.get? key with
  | none => (none, m)
  | some found => if found.isExpired now then (none, m.remove key) else (some found.get, m)

def containsKey (m : TimedMap κ V) (key : κ) (now : ℕ) : Bool × TimedMap κ V :=
  if m.inner.containsKey key then
    let found := m.get key now
    (found.1.isSome, found.2)
  else (false, m)

def clear (m : TimedMap κ V) : TimedMap κ V := { m with inner := .empty }

/-- The entries that are not expired. The clock is read once for each entry, so that the reading
may differ from key to key. -/
def unexpired (m : TimedMap κ V) (reading : κ → ℕ) : OrderedMap κ (ExpiryValue V) :=
  m.inner.filter fun e => !e.2.isExpired (reading e.1)

/-- A full iteration: the entries that are not expired are listed, the others evicted. -/
def iter (m : TimedMap κ V) (reading : κ → ℕ) : List (κ × V) × TimedMap κ V :=
  ((m.unexpired reading).entries.map fun e => (e.1, e.2.get),
    { m with inner := m.unexpired reading })

/-- Nothing is purged while expiration is disabled. -/
def purgeExpired (m : TimedMap κ V) (reading : κ → ℕ) : TimedMap κ V :=
  if m.disableExpiration then m else { m with inner := m.unexpired reading }

/-- Reset the deadline of an expirable entry; a constant entry keeps no deadline. -/
def updateExpirationStatus (m : TimedMap κ V) (key : κ) (duration now : ℕ) :
    Option ℕ × TimedMap κ V :=
  match m.inner.get? key with
  | none => (none, m)
  | some (.constant _) => (none, m)
  | some (.expirable value _) =>
    let deadline := now + duration
    (some deadline, { m with inner := m.inner.insert key (.expirable value deadline) })

def live (m : TimedMap κ V) (key : κ) (now : ℕ) : Bool :=
  (m.inner.get? key).any fun found => !found.isExpired now

theorem containsKey_fst (m : TimedMap κ V) (key : κ) (now : ℕ) :
    (m.containsKey key now).1 = m.live key now := by
  unfold containsKey live
  rw [OrderedMap.containsKey_eq]
  cases h : m.inner.get? key with
  | none => simp
  | some found => cases he : found.isExpired now <;> simp [get, h, he]

theorem get?_unexpired (m : TimedMap κ V) (reading : κ → ℕ) (key : κ) :
    (m.unexpired reading).get? key =
      (m.inner.get? key).filter fun found => !found.isExpired (reading key) :=
  m.inner.get?_filter _ key

theorem get?_inner_containsKey (m : TimedMap κ V) (key key' : κ) (now : ℕ) :
    (m.containsKey key now).2.inner.get? key' =
      if key' = key ∧ m.live key now = false then none else m.inner.get? key' := by
  unfold containsKey live
  rw [OrderedMap.containsKey_eq]
  cases h : m.inner.get? key with
  | none =>
    by_cases hk : key' = key
    · simp [hk, h]
    · simp [hk]
  | some found =>
    cases he : found.isExpired now with
    | true => simp [get, h, he, remove, OrderedMap.get?_remove]
    | false => simp [get, h, he]

theorem live_containsKey (m : TimedMap κ V) (key key' : κ) (now : ℕ) :
    (m.containsKey key now).2.live key' now = m.live key' now := by
  conv_lhs => rw [live, get?_inner_containsKey]
  split_ifs with h
  · obtain ⟨rfl, hlive⟩ := h
    rw [hlive]
    rfl
  · rfl

/-- The deadline of an expirable entry is set anew, also if it has passed. -/
theorem updateExpirationStatus_of_expirable (m : TimedMap κ V) {key : κ} {value : V}
    {expiresAt : ℕ} (h : m.inner.get? key = some (.expirable value expiresAt))
    (duration now : ℕ) :
    m.updateExpirationStatus key duration now = (some (now + duration),
      { m with inner := m.inner.insert key (.expirable value (now + duration)) }) := by
  simp only [updateExpirationStatus, h]

theorem updateExpirationStatus_of_not_expirable (m : TimedMap κ V) {key : κ}
    (h : ∀ value expiresAt, m.inner.get? key ≠ some (.expirable value expiresAt))
    (duration now : ℕ) : m.updateExpirationStatus key duration now = (none, m) := by
  unfold updateExpirationStatus
  cases hfound : m.inner.get? key with
  | none => rfl
  | some found =>
    cases found with
    | constant value => rfl
    | expirable value expiresAt => exact absurd hfound (h value expiresAt)

@[simp] theorem disableExpiration_insertExpirable (m : TimedMap κ V) (key : κ) (val : V)
    (timeout now : ℕ) :
    (m.insertExpirable key val timeout now).disableExpiration = m.disableExpiration := by
  unfold insertExpirable insertConstant
  split_ifs <;> rfl

theorem get?_inner_insertExpirable (m : TimedMap κ V) (key key' : κ) (val : V)
    (timeout now : ℕ) :
    (m.insertExpirable key val timeout now).inner.get? key' =
      if key' = key then
        some (if m.disableExpiration then .constant val else .expirable val (now + timeout))
      else m.inner.get? key' := by
  unfold insertExpirable insertConstant
  split_ifs with hd hk <;> simp [OrderedMap.get?_insert, *]

theorem live_insertExpirable_of_ne (m : TimedMap κ V) {key key' : κ} (val : V)
    (timeout now instant : ℕ) (h : key' ≠ key) :
    (m.insertExpirable key val timeout now).live key' instant = m.live key' instant := by
  rw [live, get?_inner_insertExpirable, if_neg h, live]

end TimedMap

/-- The job records: a timed map all of whose entries are constant. -/
structure RecordMap (D R P : Type) where
  map : TimedMap CollectionSuffix (Job D R P)
  constant : ∀ e ∈ map.inner.entries, e.2.isConstant = true

namespace RecordMap

variable {D R P : Type}

def new : RecordMap D R P := ⟨.new, by simp [TimedMap.new]⟩

def insertConstant (m : RecordMap D R P) (key : CollectionSuffix) (job : Job D R P) :
    RecordMap D R P :=
  ⟨m.map.insertConstant key job, by
    intro e he
    rcases (m.map.inner.mem_insert _ _ _).mp he with rfl | ⟨he, -⟩
    · rfl
    · exact m.constant e he⟩

def remove (m : RecordMap D R P) (key : CollectionSuffix) : RecordMap D R P :=
  ⟨m.map.remove key, fun e he => m.constant e (List.mem_of_mem_filter he)⟩

def clear (m : RecordMap D R P) : RecordMap D R P := ⟨m.map.clear, by simp [TimedMap.clear]⟩

/-- Mutation of the record under `key` behind its mutex, if there is one. -/
def modify (m : RecordMap D R P) (key : CollectionSuffix) (f : Job D R P → Job D R P) :
    RecordMap D R P :=
  ⟨{ m.map with inner := m.map.inner.modify key (ExpiryValue.map f) }, by
    intro e he
    obtain ⟨a, ha, rfl⟩ := List.mem_map.mp he
    have hc := m.constant a ha
    split_ifs
    · simpa using hc
    · exact hc⟩

def get (m : RecordMap D R P) (key : CollectionSuffix) : Option (Job D R P) :=
  (m.map.inner.get? key).map ExpiryValue.get

/-- A read of the timed map yields the record at any time and evicts nothing. -/
theorem timedMap_get (m : RecordMap D R P) (key : CollectionSuffix) (now : ℕ) :
    m.map.get key now = (m.get key, m.map) := by
  unfold TimedMap.get get
  cases h : m.map.inner.get? key with
  | none => rfl
  | some e =>
    have hm := (m.map.inner.get?_eq_some_iff key e).mp h
    have he := ExpiryValue.isExpired_of_isConstant (m.constant (key, e) hm) now
    simp [he]

theorem timedMap_containsKey (m : RecordMap D R P) (key : CollectionSuffix) (now : ℕ) :
    m.map.containsKey key now = ((m.get key).isSome, m.map) := by
  unfold TimedMap.containsKey
  rw [m.timedMap_get, OrderedMap.containsKey_eq]
  cases h : m.map.inner.get? key <;> simp [get, h]

theorem timedMap_updateExpirationStatus (m : RecordMap D R P) (key : CollectionSuffix)
    (duration now : ℕ) : m.map.updateExpirationStatus key duration now = (none, m.map) := by
  refine m.map.updateExpirationStatus_of_not_expirable (fun value expiresAt h => ?_) duration now
  have hc := m.constant _ ((m.map.inner.get?_eq_some_iff key _).mp h)
  simp [ExpiryValue.isConstant] at hc

theorem get_insertConstant (m : RecordMap D R P) (key key' : CollectionSuffix)
    (job : Job D R P) :
    (m.insertConstant key job).get key' = if key' = key then some job else m.get key' := by
  simp only [get, insertConstant, TimedMap.insertConstant, OrderedMap.get?_insert]
  split_ifs <;> rfl

theorem get_remove (m : RecordMap D R P) (key key' : CollectionSuffix) :
    (m.remove key).get key' = if key' = key then none else m.get key' := by
  simp only [get, remove, TimedMap.remove, OrderedMap.get?_remove]
  split_ifs <;> rfl

theorem get_modify (m : RecordMap D R P) (key key' : CollectionSuffix)
    (f : Job D R P → Job D R P) :
    (m.modify key f).get key' = if key' = key then (m.get key').map f else m.get key' := by
  simp only [get, modify, OrderedMap.get?_modify]
  split_ifs
  · cases m.map.inner.get? key' <;> simp
  · rfl

end RecordMap

end Kiomq
