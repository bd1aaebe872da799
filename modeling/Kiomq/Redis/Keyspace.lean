import Kiomq.Redis.Listing
import Kiomq.Redis.Obliteration

/-!
# Keys with a deadline

A server that also holds plain texts and can give any key a deadline. A key whose deadline
has passed is gone, whatever its type. The commands here are those that the store sends one
by one, besides the pipelines of the other modules.
-/

namespace Kiomq.Redis

open Foundations

variable {M : Type}

structure Keyspace (M : Type) extends Database Text M where
  texts : Key → Option Text
  expiresAt : Key → Option ℕ

namespace Keyspace

def empty : Keyspace M :=
  { toServer := Server.empty, sets := fun _ => [], texts := fun _ => none
    expiresAt := fun _ => none }

def expired (db : Keyspace M) (now : ℕ) (key : Key) : Bool :=
  (db.expiresAt key).any fun deadline => decide (deadline ≤ now)

/-- What is left of the keys at the time `now`. -/
def purge (now : ℕ) (db : Keyspace M) : Keyspace M where
  strings key := if db.expired now key then none else db.strings key
  lists key := if db.expired now key then [] else db.lists key
  zsets key := if db.expired now key then [] else db.zsets key
  hashes key := if db.expired now key then [] else db.hashes key
  streams key := if db.expired now key then [] else db.streams key
  published := db.published
  sets key := if db.expired now key then [] else db.sets key
  texts key := if db.expired now key then none else db.texts key
  expiresAt key := if db.expired now key then none else db.expiresAt key

/-- Change what a command of the server changes. -/
def onServer (f : Server Text M → Server Text M) (db : Keyspace M) : Keyspace M :=
  { db with toServer := f db.toServer }

def keyExists (db : Keyspace M) (key : Key) : Bool :=
  db.toServer.keyExists key || !(db.sets key).isEmpty || (db.texts key).isSome

def del (db : Keyspace M) (key : Key) : Keyspace M :=
  { toDatabase := db.toDatabase.del key
    texts := Function.update db.texts key none
    expiresAt := Function.update db.expiresAt key none }

/-- The server takes a duration in milliseconds that is positive and ends at a time of type
`i64`. -/
def ValidTtl (ms now : ℕ) : Prop := 0 < ms ∧ now + ms < 2 ^ 63

instance (ms now : ℕ) : Decidable (ValidTtl ms now) := inferInstanceAs (Decidable (_ ∧ _))

/-- `PSETEX`, which refuses a duration that is not valid. -/
def psetex (db : Keyspace M) (key : Key) (value : Text) (ms now : ℕ) : Option (Keyspace M) :=
  if ValidTtl ms now then
    let db := db.del key
    some { db with
      texts := Function.update db.texts key (some value)
      expiresAt := Function.update db.expiresAt key (some (now + ms)) }
  else none

/-- `EXPIRE` takes seconds that are an `i64` in milliseconds and end at a time of that type. -/
def ValidExpiry (secs : ℤ) (now : ℕ) : Prop := -2 ^ 63 ≤ 1000 * secs ∧ now + 1000 * secs < 2 ^ 63

instance (secs : ℤ) (now : ℕ) : Decidable (ValidExpiry secs now) :=
  inferInstanceAs (Decidable (_ ∧ _))

/-- `EXPIRE`; a duration that is not positive deletes the key at once. -/
def expire (db : Keyspace M) (key : Key) (secs : ℤ) (now : ℕ) : Option (Keyspace M) :=
  if ValidExpiry secs now then
    if !db.keyExists key then some db
    else if secs ≤ 0 then some (db.del key)
    else some
      { db with expiresAt := Function.update db.expiresAt key (some (now + 1000 * secs.toNat)) }
  else none

def sadd (db : Keyspace M) (key : Key) (member : ℕ) : Keyspace M :=
  if member ∈ db.sets key then db
  else { db with sets := Function.update db.sets key (db.sets key ++ [member]) }

def srem (db : Keyspace M) (key : Key) (member : ℕ) : Keyspace M :=
  { db with sets := Function.update db.sets key ((db.sets key).filter fun m => m ≠ member) }

/-- `SMEMBERS`, an error for a value of another type. -/
def smembers (db : Keyspace M) (key : Key) : Except ListingError (List ℕ) :=
  if db.toServer.keyExists key || (db.texts key).isSome then .error .wrongType
  else .ok (db.sets key)

end Keyspace

namespace Server

variable {V : Type}

def rpush (r : Server V M) (key : Key) (element : ℕ) : Server V M :=
  { r with lists := Function.update r.lists key (r.lists key ++ [element]) }

/-- `LREM` with count 1: the first occurrence is removed. -/
def lrem (r : Server V M) (key : Key) (element : ℕ) : Server V M :=
  { r with lists := Function.update r.lists key ((r.lists key).erase element) }

def zrem (r : Server V M) (key : Key) (member : ℕ) : Server V M :=
  { r with zsets := Function.update r.zsets key ((r.zsets key).filter fun e => e.1 ≠ member) }

def zscore (r : Server V M) (key : Key) (member : ℕ) : Option ℤ :=
  ((r.zsets key).find? fun e => e.1 = member).map Prod.snd

/-- `RPOPLPUSH`: the last element of one list becomes the first of the other. -/
def rpoplpush (r : Server V M) (src dst : Key) : Option ℕ × Server V M :=
  match (r.lists src).getLast? with
  | none => (none, r)
  | some element =>
    let lists := Function.update r.lists src (r.lists src).dropLast
    (some element, { r with lists := Function.update lists dst (element :: lists dst) })

/-- `ZPOPMIN` or `ZPOPMAX` with count 1. -/
def zpop (r : Server V M) (key : Key) (min : Bool) : Option (ℕ × ℤ) × Server V M :=
  match if min then (r.zsorted key).head? else (r.zsorted key).getLast? with
  | none => (none, r)
  | some e => (some e, r.zrem key e.1)

/-- `INCRBY` on a counter; one below zero is not represented. -/
def incrby (r : Server V M) (key : Key) (delta : ℤ) : Option ℕ × Server V M :=
  let value := ((r.strings key).getD 0 : ℤ) + delta
  if 0 ≤ value ∧ value < 2 ^ 63 then
    (some value.toNat, { r with strings := Function.update r.strings key (some value.toNat) })
  else (none, r)

end Server

/-! ### What is under one key -/

/-- The values under one key, and its deadline. A key has at most one type. -/
structure Slot where
  counter : Option ℕ := none
  list : List ℕ := []
  zset : List (ℕ × ℤ) := []
  hash : List (String × Text) := []
  stream : List (List (String × String)) := []
  set : List ℕ := []
  text : Option Text := none
  expiresAt : Option ℕ := none

namespace Slot

def expired (slot : Slot) (now : ℕ) : Bool :=
  slot.expiresAt.any fun deadline => decide (deadline ≤ now)

def purge (now : ℕ) (slot : Slot) : Slot := if slot.expired now then {} else slot

end Slot

namespace Keyspace

def slot (db : Keyspace M) (key : Key) : Slot where
  counter := db.strings key
  list := db.lists key
  zset := db.zsets key
  hash := db.hashes key
  stream := db.streams key
  set := db.sets key
  text := db.texts key
  expiresAt := db.expiresAt key

theorem slot_purge (db : Keyspace M) (now : ℕ) (key : Key) :
    (db.purge now).slot key = (db.slot key).purge now := by
  have hslot : (db.slot key).expired now = db.expired now key := rfl
  rw [Slot.purge, hslot]
  cases h : db.expired now key <;> simp [slot, purge, h]

theorem purge_purge (db : Keyspace M) (now : ℕ) : (db.purge now).purge now = db.purge now := by
  have hlive : ∀ key, (db.purge now).expired now key = false := by
    intro key
    have hdeadline : (db.purge now).expiresAt key =
        if db.expired now key then none else db.expiresAt key := rfl
    rw [expired, hdeadline]
    cases h : db.expired now key with
    | true => rfl
    | false => exact h
  unfold purge at hlive ⊢
  simp only [hlive, Bool.false_eq_true, if_false]

theorem slot_del (db : Keyspace M) (key k : Key) :
    (db.del key).slot k = if k = key then {} else db.slot k := by
  simp only [slot, del, Database.del, Function.update_apply]
  split_ifs <;> rfl

theorem slot_psetex {db db' : Keyspace M} {key : Key} {value : Text} {ms now : ℕ}
    (h : db.psetex key value ms now = some db') (k : Key) :
    db'.slot k =
      if k = key then { text := some value, expiresAt := some (now + ms) } else db.slot k := by
  unfold psetex at h
  split_ifs at h with hms
  obtain rfl := Option.some.inj h
  simp only [slot, del, Database.del, Function.update_apply]
  split_ifs <;> rfl

theorem published_psetex {db db' : Keyspace M} {key : Key} {value : Text} {ms now : ℕ}
    (h : db.psetex key value ms now = some db') : db'.published = db.published := by
  unfold psetex at h
  split_ifs at h with hms
  obtain rfl := Option.some.inj h
  rfl

theorem slot_setList (db : Keyspace M) (key : Key) (l : List ℕ) (k : Key) :
    (db.onServer fun r => { r with lists := Function.update r.lists key l }).slot k =
      if k = key then { db.slot key with list := l } else db.slot k := by
  simp only [slot, onServer, Function.update_apply]
  split_ifs with hk
  · rw [hk]
  · rfl

theorem slot_setZset (db : Keyspace M) (key : Key) (z : List (ℕ × ℤ)) (k : Key) :
    (db.onServer fun r => { r with zsets := Function.update r.zsets key z }).slot k =
      if k = key then { db.slot key with zset := z } else db.slot k := by
  simp only [slot, onServer, Function.update_apply]
  split_ifs with hk
  · rw [hk]
  · rfl

theorem slot_setHash (db : Keyspace M) (key : Key) (h : List (String × Text)) (k : Key) :
    (db.onServer fun r => { r with hashes := Function.update r.hashes key h }).slot k =
      if k = key then { db.slot key with hash := h } else db.slot k := by
  simp only [slot, onServer, Function.update_apply]
  split_ifs with hk
  · rw [hk]
  · rfl

theorem slot_setSet (db : Keyspace M) (key : Key) (l : List ℕ) (k : Key) :
    ({ db with sets := Function.update db.sets key l }).slot k =
      if k = key then { db.slot key with set := l } else db.slot k := by
  simp only [slot, Function.update_apply]
  split_ifs with hk
  · rw [hk]
  · rfl

theorem slot_incr (db : Keyspace M) (key : Key) (delta : ℕ) (k : Key) :
    (db.onServer fun r => r.exec (.incr key delta)).slot k =
      if k = key then { db.slot key with counter := some ((db.slot key).counter.getD 0 + delta) }
      else db.slot k := by
  simp only [slot, onServer, Server.exec, Function.update_apply]
  split_ifs with hk
  · rw [hk]
  · rfl

theorem keyExists_eq (db : Keyspace M) (key : Key) :
    db.keyExists key =
      ((db.slot key).counter.isSome || !(db.slot key).list.isEmpty ||
        !(db.slot key).zset.isEmpty || !(db.slot key).hash.isEmpty ||
        !(db.slot key).stream.isEmpty || !(db.slot key).set.isEmpty ||
        (db.slot key).text.isSome) := rfl

theorem smembers_of_slot_empty {db : Keyspace M} {key : Key} (h : db.slot key = {}) :
    db.smembers key = .ok [] := by
  have hserver : db.toServer.keyExists key =
      ((db.slot key).counter.isSome || !(db.slot key).list.isEmpty ||
        !(db.slot key).zset.isEmpty || !(db.slot key).hash.isEmpty ||
        !(db.slot key).stream.isEmpty) := rfl
  have hset : db.sets key = (db.slot key).set := rfl
  have htext : db.texts key = (db.slot key).text := rfl
  rw [smembers, hserver, hset, htext, h]
  rfl

end Keyspace

end Kiomq.Redis
