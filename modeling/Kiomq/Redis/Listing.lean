import Kiomq.Redis.Insertion
import Kiomq.Redis.Ranges
import Kiomq.Queue.Placement
import Kiomq.Stores.Paging

/-!
# Listing the ids of a state from Redis

`get_job_ids_in_state` of the Redis store passes `end + 1` to commands whose bounds are
inclusive. It answers with one id more than was asked for, unless `end` is the last position:
then there is no such id.
-/

namespace Kiomq

open Foundations Redis

variable {D R P V M : Type}

/-- Why a listing gives no ids. -/
inductive ListingError
  | wrongType
  | panicked
  deriving DecidableEq, Repr

namespace Redis.Server

/-- No value of the server is a set, so the key is absent or has another type. -/
def smembers (r : Server V M) (key : Key) : Except ListingError (List ℕ) :=
  if r.keyExists key then .error .wrongType else .ok []

end Redis.Server

namespace RedisStore

/-- The part of a `VecDeque` between two inclusive positions. Both have to be there. -/
def dequeRange (ids : List ℕ) (start stop : ℕ) : Except ListingError (List ℕ) :=
  if start ≤ stop + 1 ∧ stop < ids.length then .ok ((ids.take (stop + 1)).drop start)
  else .error .panicked

def getJobIdsInState (T : CaseTable) (st : RedisStore) (r : Server V M) (state : JobState)
    (start stop : Option ℕ) : Except ListingError (List ℕ) :=
  let start := start.getD 0
  let key := (CollectionSuffix.ofJobState state).toCollectionName T st.keyPrefix st.name
  match state with
  | .prioritized | .completed | .failed | .delayed =>
    let listLen := r.zcard key
    if 0 < listLen then
      let stop := stop.elim listLen fun value => value + 1
      .ok (r.zrange key (castSigned start) (castSigned stop))
    else .ok []
  | .stalled =>
    -- the key is that of the paused list
    match r.smembers key with
    | .error e => .error e
    | .ok set => if set.isEmpty then .ok [] else dequeRange set start (stop.getD set.length)
  | .active | .wait | .paused =>
    let listLen := r.llen key
    if 0 < listLen then
      let stop := stop.elim listLen fun value => value + 1
      .ok (r.lrange key (castSigned start) (castSigned stop))
    else .ok []
  | _ => .ok []

/-- The ids of a collection, in the order of the list or of the sorted set. -/
def idsAt (T : CaseTable) (st : RedisStore) (r : Server V M) (place : Place) : List ℕ :=
  let key := place.suffix.toCollectionName T st.keyPrefix st.name
  match place with
  | .waiting | .paused | .active => r.lists key
  | .prioritized | .delayed | .completed | .failed => (r.zsorted key).map Prod.fst

theorem getJobIdsInState_eq_slice (T : CaseTable) (st : RedisStore) (r : Server V M)
    (place : Place) (start stop : ℕ) :
    st.getJobIdsInState T r place.state (some start) (some stop) =
      .ok (slice (st.idsAt T r place) (castSigned start) (castSigned (stop + 1))) := by
  have hnil : ∀ i j, slice ([] : List ℕ) i j = [] := by
    intro i j
    simp [slice]
  have hlist : ∀ key, (if 0 < r.llen key then
      Except.ok (r.lrange key (castSigned start) (castSigned (stop + 1))) else .ok []) =
        (.ok (slice (r.lists key) (castSigned start) (castSigned (stop + 1))) :
          Except ListingError (List ℕ)) := by
    intro key
    split_ifs with hlen
    · rfl
    · rw [List.eq_nil_of_length_eq_zero (Nat.eq_zero_of_not_pos hlen), hnil]
  have hscored : ∀ key, (if 0 < r.zcard key then
      Except.ok (r.zrange key (castSigned start) (castSigned (stop + 1))) else .ok []) =
        (.ok (slice ((r.zsorted key).map Prod.fst) (castSigned start) (castSigned (stop + 1))) :
          Except ListingError (List ℕ)) := by
    intro key
    split_ifs with hlen
    · rw [Server.zrange, slice_map]
    · rw [← r.length_zsorted key] at hlen
      rw [List.eq_nil_of_length_eq_zero (Nat.eq_zero_of_not_pos hlen), List.map_nil, hnil]
  cases place with
  | waiting | paused | active => exact hlist _
  | prioritized | delayed | completed | failed => exact hscored _

theorem drop_take_succ_eq_iff {ids : List ℕ} {start stop : ℕ} (hstart : start ≤ stop)
    (hstop : stop < ids.length) :
    (ids.take (stop + 1 + 1)).drop start = (ids.take (stop + 1)).drop start ↔
      stop + 1 = ids.length := by
  constructor
  · intro h
    have hlength := congrArg List.length h
    simp only [List.length_drop, List.length_take] at hlength
    omega
  · intro h
    rw [List.take_of_length_le (by omega), List.take_of_length_le (by omega)]

/-- Over the same ids, both stores list the positions from `start` to `stop` just if `stop` is
the last one. The length of a collection is an `isize`. -/
theorem getJobIdsInState_same_iff (T : CaseTable) (st : RedisStore) (r : Server V M)
    (s : InMemoryStore D R P) (place : Place) (hsame : st.idsAt T r place = s.filed place)
    {start stop : ℕ} (hstart : start ≤ stop) (hstop : stop < (s.filed place).length)
    (hlen : (s.filed place).length < 2 ^ 63) :
    (st.getJobIdsInState T r place.state (some start) (some stop) =
        .ok (((s.filed place).take (stop + 1)).drop start) ∧
      InMemoryStore.Keyed.getJobIdsInState s place.state (some start) (some stop) =
        ((s.filed place).take (stop + 1)).drop start) ↔
      stop + 1 = (s.filed place).length := by
  have hmemory : InMemoryStore.Keyed.getJobIdsInState s place.state (some start) (some stop) =
      ((s.filed place).take (stop + 1)).drop start := by
    have hids : s.idsIn place.state = s.filed place := by cases place <;> rfl
    rw [InMemoryStore.Keyed.getJobIdsInState_eq, InMemoryStore.getJobIdsInState_eq_idRange, hids]
    simp only [InMemoryStore.idRange, Option.getD_some]
    rw [if_pos ⟨by omega, hstop⟩]
  have hcast : castSigned start = (start : ℤ) ∧ castSigned (stop + 1) = ((stop + 1 : ℕ) : ℤ) :=
    ⟨if_pos (by omega), if_pos (by omega)⟩
  rw [getJobIdsInState_eq_slice, hsame, hcast.1, hcast.2, slice_natCast, Except.ok.injEq,
    and_iff_left hmemory]
  exact drop_take_succ_eq_iff hstart hstop

/-! ### Three waiting jobs in both stores -/

def threeWaiting : Server Unit Unit :=
  let key := CollectionSuffix.wait.toCollectionName .ascii "kio" "mail"
  Server.empty.execAll [.lpush key 1, .lpush key 2, .lpush key 3]

theorem threeWaiting_ids :
    RedisStore.idsAt .ascii ⟨"kio", "mail"⟩ threeWaiting .waiting =
      InMemoryStore.threeWaiting.filed .waiting := by
  decide +kernel

/-- Up to the last position the answers are right. -/
theorem threeWaiting_to_last :
    RedisStore.getJobIdsInState .ascii ⟨"kio", "mail"⟩ threeWaiting .wait (some 1) (some 2) =
      .ok [2, 1] := by
  have hiff := getJobIdsInState_same_iff .ascii ⟨"kio", "mail"⟩ threeWaiting
    InMemoryStore.threeWaiting .waiting threeWaiting_ids (show 1 ≤ 2 by decide) (by decide +kernel)
    (by decide +kernel)
  have hlast : 2 + 1 = (InMemoryStore.threeWaiting.filed .waiting).length := by decide +kernel
  have hids : ((InMemoryStore.threeWaiting.filed .waiting).take (2 + 1)).drop 1 = [2, 1] := by
    decide +kernel
  exact (hiff.mpr hlast).1.trans (congrArg Except.ok hids)

/-- The first two ids: Redis answers with three. -/
theorem threeWaiting_first_two :
    RedisStore.idsAt .ascii ⟨"kio", "mail"⟩ threeWaiting .waiting =
        InMemoryStore.threeWaiting.filed .waiting ∧
      RedisStore.getJobIdsInState .ascii ⟨"kio", "mail"⟩ threeWaiting .wait (some 0) (some 1) =
        .ok [3, 2, 1] ∧
      InMemoryStore.Keyed.getJobIdsInState InMemoryStore.threeWaiting .wait (some 0) (some 1) =
        [3, 2] := by
  refine ⟨threeWaiting_ids, by rfl, by decide +kernel⟩

end RedisStore

end Kiomq
