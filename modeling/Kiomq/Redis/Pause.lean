import Kiomq.Redis.Insertion
import Mathlib.Data.Multiset.AddSub

/-!
# Pausing the Redis store

`pause` moves the wait list to the paused list, or back, by renaming the key. A rename
replaces its destination, so the jobs of the destination are kept only if one of the two
lists is empty. Both can have jobs: promotions and immediate repeats enter the wait list
of a paused queue.
-/

namespace Kiomq

open Foundations Redis

namespace Redis.Server

variable {V M : Type}

def listExists (r : Server V M) (key : Key) : Bool := !(r.lists key).isEmpty

/-- `RENAME` of a list: the destination is replaced and the source is gone. -/
def renameList (r : Server V M) (src dst : Key) : Server V M :=
  { r with lists := Function.update (Function.update r.lists src []) dst (r.lists src) }

def hdel (r : Server V M) (key : Key) (field : String) : Server V M :=
  { r with hashes := Function.update r.hashes key ((r.hashes key).filter fun f => f.1 ≠ field) }

end Redis.Server

namespace RedisStore

variable {V M : Type}

def waitKey (T : CaseTable) (st : RedisStore) : Key :=
  CollectionSuffix.wait.toCollectionName T st.keyPrefix st.name

def pausedKey (T : CaseTable) (st : RedisStore) : Key :=
  CollectionSuffix.paused.toCollectionName T st.keyPrefix st.name

def metaKey (T : CaseTable) (st : RedisStore) : Key :=
  CollectionSuffix.metaKey.toCollectionName T st.keyPrefix st.name

/-- The list that is moved, and the one it is moved to. -/
def pauseSource (T : CaseTable) (st : RedisStore) (pause : Bool) : Key :=
  if pause then st.waitKey T else st.pausedKey T

def pauseTarget (T : CaseTable) (st : RedisStore) (pause : Bool) : Key :=
  if pause then st.pausedKey T else st.waitKey T

/-- Look whether the source exists, and then send the rename and the change of the flag as
one transaction. The parameter `one` is the stored text of the number 1. -/
def pause (T : CaseTable) (one : V) (st : RedisStore) (r : Server V M) (pause : Bool) :
    Server V M :=
  let src := st.pauseSource T pause
  let dst := st.pauseTarget T pause
  let moved := if r.listExists src then r.renameList src dst else r
  if pause then moved.exec (.hsetMultiple (st.metaKey T) [("paused", one)])
  else moved.hdel (st.metaKey T) "paused"

/-- The ids in the wait list and in the paused list, with their multiplicity. -/
def enqueued (T : CaseTable) (st : RedisStore) (r : Server V M) : Multiset ℕ :=
  (r.lists (st.waitKey T) : Multiset ℕ) + r.lists (st.pausedKey T)

theorem waitKey_ne_pausedKey (T : CaseTable) (st : RedisStore) :
    st.waitKey T ≠ st.pausedKey T := by
  unfold waitKey pausedKey
  rw [CollectionSuffix.toCollectionName_eq, CollectionSuffix.toCollectionName_eq]
  exact T.toLowercase_append_ne (c := 't') (d := 'd') (by decide) (by decide) (by decide)
    (by decide) (by decide)

theorem pauseSource_ne_pauseTarget (T : CaseTable) (st : RedisStore) (b : Bool) :
    st.pauseSource T b ≠ st.pauseTarget T b := by
  cases b with
  | true => exact st.waitKey_ne_pausedKey T
  | false => exact (st.waitKey_ne_pausedKey T).symm

theorem enqueued_eq (T : CaseTable) (st : RedisStore) (r : Server V M) (b : Bool) :
    st.enqueued T r =
      (r.lists (st.pauseSource T b) : Multiset ℕ) + r.lists (st.pauseTarget T b) := by
  cases b with
  | true => rfl
  | false => exact add_comm _ _

theorem lists_pause (T : CaseTable) (one : V) (st : RedisStore) (r : Server V M) (b : Bool) :
    (st.pause T one r b).lists =
      if r.listExists (st.pauseSource T b) then
        (r.renameList (st.pauseSource T b) (st.pauseTarget T b)).lists
      else r.lists := by
  cases b with
  | true =>
    simp only [pause, if_true]
    split_ifs <;> rfl
  | false =>
    simp only [pause, Bool.false_eq_true, if_false]
    split_ifs <;> rfl

/-- A rename leaves what the source held and drops the destination. -/
theorem enqueued_renameList (T : CaseTable) (st : RedisStore) (r : Server V M) (b : Bool) :
    st.enqueued T (r.renameList (st.pauseSource T b) (st.pauseTarget T b)) =
      r.lists (st.pauseSource T b) := by
  have hne := st.pauseSource_ne_pauseTarget T b
  rw [enqueued_eq T st _ b]
  simp [Server.renameList, Function.update_of_ne hne]

/-- Pausing and resuming lose no job just if the moved list or its destination is empty. -/
theorem pause_keeps_jobs_iff (T : CaseTable) (one : V) (st : RedisStore) (r : Server V M)
    (b : Bool) :
    st.enqueued T (st.pause T one r b) = st.enqueued T r ↔
      r.lists (st.pauseSource T b) = [] ∨ r.lists (st.pauseTarget T b) = [] := by
  have hlists := st.lists_pause T one r b
  by_cases hsrc : r.lists (st.pauseSource T b) = []
  · have hno : r.listExists (st.pauseSource T b) = false := by simp [Server.listExists, hsrc]
    rw [hno] at hlists
    simp [enqueued, hlists, hsrc]
  · have hyes : r.listExists (st.pauseSource T b) = true := by simp [Server.listExists, hsrc]
    rw [hyes, if_pos rfl] at hlists
    have hmoved : st.enqueued T (st.pause T one r b) = r.lists (st.pauseSource T b) := by
      rw [← st.enqueued_renameList T r b]
      simp only [enqueued, hlists]
    rw [hmoved, enqueued_eq T st r b, left_eq_add, Multiset.coe_eq_zero]
    simp [hsrc]

/-- A paused queue: job 2 was added while it was paused, job 1 was promoted. -/
def promotedWhilePaused : Server String Unit :=
  let st := RedisStore.new none "mail"
  Server.empty.execAll [.lpush (st.pausedKey .ascii) 2, .lpush (st.waitKey .ascii) 1]

/-- Resuming the queue drops job 1. -/
theorem resume_drops_promoted_job :
    (RedisStore.new none "mail").enqueued .ascii promotedWhilePaused = {1, 2} ∧
      (RedisStore.new none "mail").enqueued .ascii
        ((RedisStore.new none "mail").pause .ascii "1" promotedWhilePaused false) = {2} := by
  decide +kernel

end RedisStore

end Kiomq
