import Kiomq.Redis.Workers

/-!
# The types of the keys, and the check for stalled jobs

Each collection of a queue has one type of value on the server. A call that asks for a counter
where there is one, and that moves ids to a list, keeps every key to its type, whatever the
order of the calls and whoever makes them. The listing of the stalled jobs is the one command
that does not fit: it asks for the members of the set under the key of the paused list. So it
fails while the paused list has members, and otherwise it finds nothing, and the check that
it is for never recovers a job.
-/

namespace Kiomq

open Foundations Redis

variable {D R P M : Type}

namespace Redis

/-- The types of values; a counter is a string that holds a number. -/
inductive KeyType
  | counter
  | list
  | zset
  | hash
  | stream
  | set
  | text
  deriving DecidableEq, Repr

def Slot.Holds (slot : Slot) : KeyType → Prop
  | .counter => slot.counter ≠ none
  | .list => slot.list ≠ []
  | .zset => slot.zset ≠ []
  | .hash => slot.hash ≠ []
  | .stream => slot.stream ≠ []
  | .set => slot.set ≠ []
  | .text => slot.text ≠ none

theorem Slot.not_holds_empty (υ : KeyType) : ¬ ({} : Slot).Holds υ := by
  cases υ <;> simp [Slot.Holds]

namespace Keyspace

/-- No key has got a value of another type, except that `key` may have got one of type `τ`. -/
def Writes (db db' : Keyspace M) (key : Key) (τ : KeyType) : Prop :=
  ∀ k υ, (db'.slot k).Holds υ → (db.slot k).Holds υ ∨ k = key ∧ υ = τ

/-- No key has got a value of another type. -/
def Erases (db db' : Keyspace M) : Prop := ∀ k υ, (db'.slot k).Holds υ → (db.slot k).Holds υ

theorem Erases.refl (db : Keyspace M) : Erases db db := fun _ _ h => h

theorem Erases.writes {db db' db'' : Keyspace M} {key : Key} {τ : KeyType} (h : Erases db db')
    (h' : Writes db' db'' key τ) : Writes db db'' key τ :=
  fun k υ hk => (h' k υ hk).imp_left (h k υ)

theorem writes_of_slot {db db' : Keyspace M} {key : Key} {slot : Slot} {τ : KeyType}
    (h : ∀ k, db'.slot k = if k = key then slot else db.slot k)
    (hslot : ∀ υ, slot.Holds υ → (db.slot key).Holds υ ∨ υ = τ) : Writes db db' key τ := by
  intro k υ hk
  rw [h k] at hk
  split_ifs at hk with hkey
  · subst hkey
    exact (hslot υ hk).imp_right fun hυ => ⟨rfl, hυ⟩
  · exact Or.inl hk

theorem erases_purge (db : Keyspace M) (now : ℕ) : Erases db (db.purge now) := by
  intro k υ h
  rw [slot_purge, Slot.purge] at h
  split_ifs at h
  · exact absurd h (Slot.not_holds_empty υ)
  · exact h

theorem erases_del (db : Keyspace M) (key : Key) : Erases db (db.del key) := by
  intro k υ h
  rw [slot_del] at h
  split_ifs at h
  · exact absurd h (Slot.not_holds_empty υ)
  · exact h

theorem erases_expire {db db' : Keyspace M} {key : Key} {secs : ℤ} {now : ℕ}
    (h : db.expire key secs now = some db') : Erases db db' := by
  unfold expire at h
  split_ifs at h
  · obtain rfl := Option.some.inj h
    exact Erases.refl db
  · obtain rfl := Option.some.inj h
    exact erases_del db key
  · obtain rfl := Option.some.inj h
    intro k υ hk
    cases υ <;> exact hk

theorem writes_psetex {db db' : Keyspace M} {key : Key} {value : Text} {ms now : ℕ}
    (h : db.psetex key value ms now = some db') : Writes db db' key .text := by
  refine writes_of_slot (slot_psetex h) fun υ hυ => ?_
  cases υ <;> simp_all [Slot.Holds]

theorem writes_setList (db : Keyspace M) (key : Key) (l : List ℕ) :
    Writes db (db.onServer fun r => { r with lists := Function.update r.lists key l }) key
      .list := by
  refine writes_of_slot (slot_setList db key l) fun υ hυ => ?_
  cases υ with
  | list => exact Or.inr rfl
  | _ => exact Or.inl hυ

theorem writes_setZset (db : Keyspace M) (key : Key) (z : List (ℕ × ℤ)) :
    Writes db (db.onServer fun r => { r with zsets := Function.update r.zsets key z }) key
      .zset := by
  refine writes_of_slot (slot_setZset db key z) fun υ hυ => ?_
  cases υ with
  | zset => exact Or.inr rfl
  | _ => exact Or.inl hυ

theorem writes_setHash (db : Keyspace M) (key : Key) (h : List (String × Text)) :
    Writes db (db.onServer fun r => { r with hashes := Function.update r.hashes key h }) key
      .hash := by
  refine writes_of_slot (slot_setHash db key h) fun υ hυ => ?_
  cases υ with
  | hash => exact Or.inr rfl
  | _ => exact Or.inl hυ

theorem writes_setSet (db : Keyspace M) (key : Key) (l : List ℕ) :
    Writes db { db with sets := Function.update db.sets key l } key .set := by
  refine writes_of_slot (slot_setSet db key l) fun υ hυ => ?_
  cases υ with
  | set => exact Or.inr rfl
  | _ => exact Or.inl hυ

theorem writes_setCounter (db : Keyspace M) (key : Key) (n : Option ℕ) :
    Writes db (db.onServer fun r => { r with strings := Function.update r.strings key n }) key
      .counter := by
  have hslot : ∀ k, (db.onServer fun r => { r with
      strings := Function.update r.strings key n }).slot k =
        if k = key then { db.slot key with counter := n } else db.slot k := by
    intro k
    simp only [slot, onServer, Function.update_apply]
    split_ifs with hk
    · rw [hk]
    · rfl
  refine writes_of_slot hslot fun υ hυ => ?_
  cases υ with
  | counter => exact Or.inr rfl
  | _ => exact Or.inl hυ

theorem writes_setStream (db : Keyspace M) (key : Key) (items : List (List (String × String))) :
    Writes db (db.onServer fun r => { r with streams := Function.update r.streams key items }) key
      .stream := by
  have hslot : ∀ k, (db.onServer fun r => { r with
      streams := Function.update r.streams key items }).slot k =
        if k = key then { db.slot key with stream := items } else db.slot k := by
    intro k
    simp only [slot, onServer, Function.update_apply]
    split_ifs with hk
    · rw [hk]
    · rfl
  refine writes_of_slot hslot fun υ hυ => ?_
  cases υ with
  | stream => exact Or.inr rfl
  | _ => exact Or.inl hυ

end Keyspace

end Redis

/-! ### The types of the collections -/

/-- The type of the values that the store writes under the key of a collection. -/
def CollectionSuffix.keyType : CollectionSuffix → Option KeyType
  | .active | .wait | .paused => some .list
  | .completed | .delayed | .failed | .prioritized => some .zset
  | .stalled => some .set
  | .id | .priorityCounter => some .counter
  | .metaKey | .job _ => some .hash
  | .events => some .stream
  | .lock _ | .stalledCheck => some .text
  | .marker | .prefixKey | .workerMetrics | .processMetrics => none

theorem CollectionSuffix.keyType_of_isScored {col : CollectionSuffix}
    (h : RedisStore.isScored col = true) : col.keyType = some .zset := by
  cases col <;> first | rfl | cases h

theorem CollectionSuffix.keyType_of_isList {col : CollectionSuffix}
    (h : RedisStore.isList col = true) : col.keyType = some .list := by
  cases col <;> first | rfl | cases h

/-- A call that asks for a counter where there is one, and that moves ids to a list. -/
def StoreCall.typed : StoreCall R P → Bool
  | .incr key _ none => key.keyType = some .counter
  | .incr key _ (some _) => key.keyType = some .hash
  | .popBackPushFront _ dst => dst.keyType = some .list
  | _ => true

namespace RedisStore

/-- The key of the collection holds values of its own type only. -/
def WellTyped (T : CaseTable) (st : RedisStore) (suffix : CollectionSuffix) (db : Keyspace M) :
    Prop :=
  ∀ υ, (db.slot (st.key T suffix)).Holds υ → suffix.keyType = some υ

namespace WellTyped

variable {T : CaseTable} {st : RedisStore} {suffix : CollectionSuffix} {db db' : Keyspace M}

theorem empty (T : CaseTable) (st : RedisStore) (suffix : CollectionSuffix) :
    st.WellTyped T suffix (.empty : Keyspace M) :=
  fun υ h => absurd h (Slot.not_holds_empty υ)

theorem erases (h : st.WellTyped T suffix db) (he : Keyspace.Erases db db') :
    st.WellTyped T suffix db' :=
  fun υ hυ => h υ (he _ υ hυ)

theorem writes (h : st.WellTyped T suffix db) (col : CollectionSuffix) {τ : KeyType}
    (hw : Keyspace.Writes db db' (st.key T col) τ) (hτ : suffix = col → col.keyType = some τ) :
    st.WellTyped T suffix db' := by
  intro υ hυ
  rcases hw _ υ hυ with hold | ⟨hkey, rfl⟩
  · exact h υ hold
  · have hcol := key_injective T st hkey
    rw [hcol]
    exact hτ hcol

theorem addItem (h : st.WellTyped T suffix db) (col : CollectionSuffix) (item : ℕ)
    (score : Option ℤ) (append : Bool) : st.WellTyped T suffix (Calls.addItem T st db col item score append) := by
  unfold Calls.addItem
  dsimp only
  split_ifs with hscored hstalled hlist happend
  · exact h.writes _ (Keyspace.writes_setZset db _ _)
      (fun _ => CollectionSuffix.keyType_of_isScored hscored)
  · subst hstalled
    unfold Keyspace.sadd
    split_ifs
    · exact h
    · exact h.writes _ (Keyspace.writes_setSet db _ _) fun _ => rfl
  · exact h.writes _ (Keyspace.writes_setList db _ _)
      (fun _ => CollectionSuffix.keyType_of_isList hlist)
  · exact h.writes _ (Keyspace.writes_setList db _ _)
      (fun _ => CollectionSuffix.keyType_of_isList hlist)
  · exact h

theorem removeItem (h : st.WellTyped T suffix db) (col : CollectionSuffix) (item : ℕ) :
    st.WellTyped T suffix (Calls.removeItem T st db col item) := by
  unfold Calls.removeItem
  dsimp only
  split_ifs with hscored hstalled hlist
  · exact h.writes _ (Keyspace.writes_setZset db _ _)
      (fun _ => CollectionSuffix.keyType_of_isScored hscored)
  · subst hstalled
    exact h.writes _ (Keyspace.writes_setSet db _ _) fun _ => rfl
  · exact h.writes _ (Keyspace.writes_setList db _ _)
      (fun _ => CollectionSuffix.keyType_of_isList hlist)
  · exact h

theorem popSet (h : st.WellTyped T suffix db) (col : CollectionSuffix) (min : Bool) :
    st.WellTyped T suffix (Calls.popSet T st db col min).2 := by
  have hcol : suffix = col → db.zsets (st.key T col) ≠ [] → col.keyType = some .zset := by
    rintro rfl
    exact h .zset
  have hsorted : db.zsets (st.key T col) = [] → db.toServer.zsorted (st.key T col) = [] := by
    intro hnil
    have hperm := db.toServer.zsorted_perm (st.key T col)
    rw [hnil] at hperm
    exact hperm.eq_nil
  unfold Calls.popSet Server.zpop
  dsimp only
  by_cases hnil : db.zsets (st.key T col) = []
  · rw [hsorted hnil]
    cases min <;> exact h
  · split
    · exact h
    · exact h.writes _ (Keyspace.writes_setZset db _ _) fun hs => hcol hs hnil

theorem popBackPushFront (h : st.WellTyped T suffix db) (src : CollectionSuffix)
    {dst : CollectionSuffix} (hdst : dst.keyType = some .list) :
    st.WellTyped T suffix (Calls.popBackPushFront T st db src dst).2 := by
  unfold Calls.popBackPushFront Server.rpoplpush
  dsimp only
  by_cases hnil : db.lists (st.key T src) = []
  · rw [hnil]
    exact h
  · have hsrc : suffix = src → src.keyType = some .list := by
      rintro rfl
      exact h .list hnil
    split
    · exact h
    · have hpopped := h.writes src
        (Keyspace.writes_setList db (st.key T src) (db.lists (st.key T src)).dropLast) hsrc
      exact hpopped.writes dst (Keyspace.writes_setList _ (st.key T dst) _) fun _ => hdst

theorem getDelayedAt (h : st.WellTyped T suffix db) (start stop : ℤ) :
    st.WellTyped T suffix (db.onServer fun _ => (st.getDelayedAt T db.toServer start stop).2) := by
  have hdue : st.WellTyped T suffix (db.onServer fun r =>
      r.zremrangebyscore (st.key T .delayed) (.inclusive start) (.inclusive stop)) :=
    h.writes .delayed (Keyspace.writes_setZset db _ _) fun _ => rfl
  exact hdue.writes .delayed (Keyspace.writes_setZset _ _ _) fun _ => rfl

theorem expire (h : st.WellTyped T suffix db) (col : CollectionSuffix) (secs : ℤ) (clock : Clock) :
    st.WellTyped T suffix (Calls.expire T st db col secs clock).2 := by
  unfold Calls.expire
  split
  · next db' hexpire => exact h.erases (Keyspace.erases_expire hexpire)
  · exact h

theorem setLock (h : st.WellTyped T suffix db) (codec : JobCodec D R P) (col : CollectionSuffix)
    (token : Option JobToken) (lockDuration : ℕ) (clock : Clock) :
    st.WellTyped T suffix (Calls.setLock T st db codec col token lockDuration clock).2 := by
  have hsent : ∀ {value : Text} {db' : Keyspace M}, col.keyType = some .text →
      db.psetex (st.key T col) value lockDuration clock.instant = some db' →
        st.WellTyped T suffix db' :=
    fun hcol hset => h.writes col (Keyspace.writes_psetex hset) fun _ => hcol
  unfold Calls.setLock
  dsimp only
  split
  · split
    · next hset => exact hsent rfl hset
    · exact h
  · split
    · next hset => exact hsent rfl hset
    · exact h
  · exact h

theorem setFields (h : st.WellTyped T suffix db) (codec : JobCodec D R P) (jobId : ℕ)
    (fields : List (JobField R)) :
    st.WellTyped T suffix (Calls.setFields T st db codec jobId fields).2 := by
  have hfold : ∀ (pairs : List (String × Text)) (r : Server Text M),
      st.WellTyped T suffix (db.onServer fun _ => r) →
        st.WellTyped T suffix (db.onServer fun _ =>
          pairs.foldl (fun r pair => r.exec (.hsetMultiple (st.recordKey T jobId) [pair])) r) := by
    intro pairs
    induction pairs with
    | nil => exact fun r hr => hr
    | cons pair pairs ih =>
      exact fun r hr => ih _ (hr.writes (.job jobId) (Keyspace.writes_setHash _ _ _) fun _ => rfl)
  unfold Calls.setFields
  split_ifs
  · exact h
  · exact hfold _ db.toServer h

theorem incr (h : st.WellTyped T suffix db) {key : CollectionSuffix} (delta : ℤ)
    {hashKey : Option CounterName}
    (hkey : key.keyType = some (if hashKey.isSome then .hash else .counter)) :
    st.WellTyped T suffix (Calls.incr T st db key delta hashKey).2 := by
  cases hashKey with
  | none =>
    unfold Calls.incr Server.incrby
    dsimp only
    split_ifs
    · exact h.writes key (Keyspace.writes_setCounter db _ _) fun _ => hkey
    · exact h
  | some field =>
    unfold Calls.incr hincrby
    dsimp only
    split
    · exact h
    · split_ifs
      · exact h.writes key (Keyspace.writes_setHash db _ _) fun _ => hkey
      · exact h

theorem publishEvent {db : Keyspace (QueueStreamEvent R P)} (h : st.WellTyped T suffix db)
    (codec : EventCodec R P) (eventMode : QueueEventMode) (idText : List Char)
    (event : QueueStreamEvent R P) :
    st.WellTyped T suffix (db.onServer (st.publishEvent T codec eventMode idText event)) := by
  cases eventMode with
  | pubSub => exact h
  | stream => exact h.writes .events (Keyspace.writes_setStream db _ _) fun _ => rfl

theorem pause (h : st.WellTyped T suffix db) (pause : Bool) :
    st.WellTyped T suffix (db.onServer fun r => st.pause T ['1'] r pause) := by
  have hmoved : st.WellTyped T suffix (db.onServer fun r =>
      if r.listExists (st.pauseSource T pause) then
        r.renameList (st.pauseSource T pause) (st.pauseTarget T pause) else r) := by
    have hrename : ∀ src dst : CollectionSuffix, src.keyType = some .list →
        dst.keyType = some .list → st.WellTyped T suffix (db.onServer fun r =>
          if r.listExists (st.key T src) then r.renameList (st.key T src) (st.key T dst)
          else r) := by
      intro src dst hsrc hdst
      unfold Keyspace.onServer
      dsimp only
      split_ifs
      · have hgone := h.writes src (Keyspace.writes_setList db (st.key T src) []) fun _ => hsrc
        exact hgone.writes dst (Keyspace.writes_setList _ (st.key T dst) _) fun _ => hdst
      · exact h
    cases pause with
    | true => exact hrename .wait .paused rfl rfl
    | false => exact hrename .paused .wait rfl rfl
  cases pause with
  | true => exact hmoved.writes .metaKey (Keyspace.writes_setHash _ _ _) fun _ => rfl
  | false => exact hmoved.writes .metaKey (Keyspace.writes_setHash _ _ _) fun _ => rfl

theorem perform {db : Keyspace (QueueStreamEvent R P)} (h : st.WellTyped T suffix db)
    (codec : RedisCodec D R P) (clock : Clock) {c : StoreCall R P} (hc : c.typed = true) :
    st.WellTyped T suffix (RedisStore.perform T st codec clock c db).2 := by
  have hpurged := h.erases (db.erases_purge clock.instant)
  cases c with
  | addItem col item score append => exact hpurged.addItem col item score append
  | removeItem col item => exact hpurged.removeItem col item
  | remove key => exact hpurged.erases (Keyspace.erases_del _ _)
  | popSet col min => exact hpurged.popSet col min
  | popBackPushFront src dst => exact hpurged.popBackPushFront src (of_decide_eq_true hc)
  | getDelayedAt start stop => exact hpurged.getDelayedAt start stop
  | setLock col token lockDuration => exact hpurged.setLock codec.job col token lockDuration clock
  | setFields id fields => exact hpurged.setFields codec.job id fields
  | incr key delta hashKey =>
    refine hpurged.incr delta ?_
    cases hashKey <;> exact of_decide_eq_true hc
  | expire col secs => exact hpurged.expire col secs clock
  | publishEvent eventMode event => exact hpurged.publishEvent codec.event eventMode _ event
  | pause pause => exact hpurged.pause pause
  | _ => exact hpurged

end WellTyped

end RedisStore

/-! ### The calls of the queue -/

namespace GenericQueue

def UsesTyped {α : Type} (p : StoreM D R P α) : Prop :=
  p.Uses fun c : StoreCall R P => c.typed = true

variable {α β : Type} {g : GenericQueue}

theorem UsesTyped.bind {p : StoreM D R P α} {f : α → StoreM D R P β} (hp : UsesTyped p)
    (hf : ∀ a, UsesTyped (f a)) : UsesTyped (p >>= f) :=
  Procedure.Uses.bind hp hf

theorem usesTyped_pure (a : α) : UsesTyped (pure a : StoreM D R P α) := trivial

theorem usesTyped_throw (e : StoreError) : UsesTyped (throw e : StoreM D R P α) := trivial

theorem usesTyped_call {c : StoreCall R P} (h : c.typed = true) :
    UsesTyped (.call (I := storeInterface D R P) c : StoreM D R P (StoreCall.Answer D c)) :=
  Procedure.uses_call.mpr h

theorem usesTyped_attempt {c : StoreCall R P} {read : StoreCall.Answer D c → StoreResult α}
    (h : c.typed = true) : UsesTyped (.attempt (I := storeInterface D R P) c read) :=
  Procedure.uses_attempt.mpr h

theorem usesTyped_liftKio (r : KioResult α) : UsesTyped (liftKio r : StoreM D R P α) := by
  cases r <;> trivial

theorem usesTyped_relocate (jobId : ℕ) (prev next : JobState) (ts : Option ℤ) (clock : Clock) :
    UsesTyped (relocate jobId prev next ts clock : StoreM D R P Unit) := by
  unfold relocate
  dsimp only
  split_ifs
  · refine .bind (usesTyped_attempt rfl) fun _ => ?_
    exact .bind (usesTyped_attempt rfl) fun _ => usesTyped_attempt rfl
  · refine .bind (usesTyped_attempt rfl) fun existsInList => ?_
    split_ifs
    · exact usesTyped_pure ()
    · exact .bind (usesTyped_attempt rfl) fun _ => usesTyped_attempt rfl

theorem usesTyped_moveJobToState (jobId : ℕ) (prev next : JobState)
    (value : Option (ProcessedResult R)) (ts : Option ℤ) (backtrace : Option Trace)
    (clock : Clock) :
    UsesTyped (g.moveJobToState jobId prev next value ts backtrace clock : StoreM D R P Unit) := by
  unfold moveJobToState
  split_ifs
  · exact usesTyped_pure ()
  · refine .bind (usesTyped_call rfl) fun jobExists => ?_
    split_ifs
    · exact usesTyped_throw _
    · refine .bind (usesTyped_relocate jobId prev next ts clock) fun _ => ?_
      exact .bind (usesTyped_attempt rfl) fun _ => usesTyped_attempt rfl

theorem usesTyped_requireJob (jobId : ℕ) :
    UsesTyped (requireJob jobId : StoreM D R P (Job D R P)) := by
  refine .bind (usesTyped_call rfl) fun job => ?_
  cases job with
  | none => exact usesTyped_throw _
  | some job => exact usesTyped_pure job

theorem usesTyped_prepareJob (token : JobToken) (opts : WorkerOpts) (jobId : ℕ) (clock : Clock) :
    UsesTyped (g.prepareJob token opts jobId clock : StoreM D R P (Job D R P)) := by
  refine .bind (usesTyped_call rfl) fun prevState => ?_
  refine .bind (usesTyped_attempt rfl) fun _ => ?_
  refine .bind (usesTyped_moveJobToState _ _ _ _ _ _ _) fun _ => ?_
  exact .bind (usesTyped_attempt rfl) fun _ => usesTyped_requireJob jobId

theorem usesTyped_moveJobFromPriortyToActive :
    UsesTyped (moveJobFromPriortyToActive : StoreM D R P (Option ℕ)) := by
  refine .bind (usesTyped_attempt rfl) fun minPriorityJob => ?_
  cases minPriorityJob with
  | nil => exact .bind (usesTyped_attempt rfl) fun _ => usesTyped_pure none
  | cons e es => exact .bind (usesTyped_attempt rfl) fun _ => usesTyped_pure _

theorem usesTyped_moveToActive (token : JobToken) (opts : WorkerOpts) (clock : Clock) :
    UsesTyped (g.moveToActive token opts clock : StoreM D R P (MoveToActiveResult D R P)) := by
  refine .bind (usesTyped_call rfl) fun found => ?_
  cases found with
  | some jobId => exact .bind (usesTyped_prepareJob _ _ _ _) fun _ => usesTyped_pure _
  | none =>
    refine .bind usesTyped_moveJobFromPriortyToActive fun prioritized => ?_
    cases prioritized with
    | some jobId => exact .bind (usesTyped_prepareJob _ _ _ _) fun _ => usesTyped_pure _
    | none => exact usesTyped_pure _

theorem usesTyped_moveFinished (job : Job D R P) (token : JobToken)
    (returned : Except CaughtError R) (clock : Clock) :
    UsesTyped (g.moveFinished job token returned clock) := by
  have hmove : ∀ (jobId : ℕ) (ts : ℤ) (next : JobState) (processed : ProcessedResult R)
      (backtrace : Option Trace), UsesTyped (g.moveJobToFinishedOrFailed jobId ts token next
        processed backtrace clock : StoreM D R P (Job D R P)) := by
    intro jobId ts next processed backtrace
    refine .bind (usesTyped_call rfl) fun prevState => ?_
    exact .bind (usesTyped_moveJobToState _ _ _ _ _ _ _) fun _ => usesTyped_requireJob jobId
  refine .bind (usesTyped_liftKio _) fun metrics => ?_
  cases returned with
  | ok result => exact .bind (hmove _ _ _ _ _) fun _ => usesTyped_pure _
  | error err => exact .bind (hmove _ _ _ _ _) fun _ => usesTyped_pure _

theorem usesTyped_retryJob (jobId : ℕ) (opts : RetryOptions) (attempts : ℕ) (clock : Clock) :
    UsesTyped (g.retryJob jobId opts attempts clock : StoreM D R P Unit) := by
  cases opts with
  | failed backoffJobOpts =>
    unfold retryJob retryFailed
    dsimp only
    split
    · exact usesTyped_pure ()
    · refine .bind (usesTyped_liftKio _) fun activeTime => ?_
      exact .bind (usesTyped_attempt rfl) fun _ => usesTyped_attempt rfl
  | withRepeat r =>
    refine .bind (usesTyped_liftKio _) fun next => ?_
    cases next with
    | none => exact usesTyped_pure ()
    | some next =>
      dsimp only
      split_ifs
      · exact usesTyped_attempt rfl
      · exact usesTyped_attempt rfl

theorem usesTyped_cleanUpJob (jobId : ℕ) (removeOptions : Option RemoveOnCompletionOrFailure) :
    UsesTyped (cleanUpJob jobId removeOptions : StoreM D R P Unit) := by
  have hremove : ∀ b : Bool, UsesTyped
      (if b then Store.remove (.job jobId) else pure () : StoreM D R P Unit) := by
    intro b
    cases b with
    | true => exact usesTyped_attempt rfl
    | false => exact usesTyped_pure ()
  unfold cleanUpJob
  split
  · exact usesTyped_pure ()
  · exact hremove _
  · exact hremove _
  · next keep =>
    refine .bind ?_ fun _ => hremove _
    unfold expireAfter
    split
    · exact usesTyped_attempt rfl
    · exact usesTyped_pure ()

theorem usesTyped_updateProcessingCount (increment : Bool) (workerId : Uuid) (jobId : ℕ)
    (state : JobState) :
    UsesTyped (g.updateProcessingCount increment workerId jobId state : StoreM D R P ℕ) := by
  refine .bind (usesTyped_attempt rfl) fun _ => ?_
  exact .bind (usesTyped_attempt rfl) fun _ => usesTyped_call rfl

theorem usesTyped_repeatOrCleanUp (jobId : ℕ) (completed : Job D R P) (entry : JobMeta D R P)
    (clock : Clock) : UsesTyped (g.repeatOrCleanUp jobId completed entry clock) := by
  unfold repeatOrCleanUp
  split_ifs
  · split
    · exact usesTyped_retryJob _ _ _ _
    · exact usesTyped_pure ()
  · exact usesTyped_cleanUpJob _ _

theorem usesTyped_retryOrCleanUp (jobId : ℕ) (failedJob : Job D R P) (entry : JobMeta D R P)
    (clock : Clock) : UsesTyped (g.retryOrCleanUp jobId failedJob entry clock) := by
  have hretry : UsesTyped (g.retryWhileLeft jobId failedJob entry clock) := by
    unfold retryWhileLeft
    split_ifs
    · split
      · exact usesTyped_retryJob _ _ _ _
      · exact usesTyped_pure ()
    · exact usesTyped_pure ()
  refine .bind hretry fun _ => ?_
  split_ifs
  · exact usesTyped_cleanUpJob _ _
  · exact usesTyped_pure ()

theorem usesTyped_processJob (job : Job D R P) (token : JobToken) (workerId : Uuid)
    (entry : Option (JobMeta D R P)) (returned : Except CaughtError R) (clock : Clock) :
    UsesTyped (g.processJob job token workerId entry returned clock) := by
  have hfollow : ∀ (done : JobState × Job D R P) entry,
      UsesTyped (g.followUp (job.id.getD 0) done.1 done.2 entry clock) := by
    intro done entry
    unfold followUp
    split_ifs
    · exact usesTyped_repeatOrCleanUp _ _ _ _
    · exact usesTyped_retryOrCleanUp _ _ _ _
  refine .bind (usesTyped_moveFinished job token returned clock) fun done => ?_
  unfold settleFinished settle
  cases entry with
  | none => exact usesTyped_pure ()
  | some entry =>
    refine .bind (hfollow done entry) fun _ => ?_
    unfold releaseTask
    split
    · exact .bind (usesTyped_updateProcessingCount _ _ _ _) fun _ => usesTyped_pure ()
    · exact usesTyped_pure ()

theorem usesTyped_extendLock (jobId lockDuration : ℕ) (token : JobToken) :
    UsesTyped (extendLock jobId lockDuration token : StoreM D R P Bool) := by
  refine .bind (usesTyped_call rfl) fun previous => ?_
  split_ifs
  · refine .bind (usesTyped_attempt rfl) fun _ => ?_
    exact .bind (usesTyped_attempt rfl) fun _ => usesTyped_pure true
  · exact usesTyped_pure false

theorem usesTyped_pauseOrResume : UsesTyped (g.pauseOrResume : StoreM D R P Bool) := by
  refine .bind (usesTyped_attempt rfl) fun metrics => ?_
  refine .bind (usesTyped_attempt rfl) fun _ => ?_
  exact .bind (usesTyped_attempt rfl) fun _ => usesTyped_pure _

theorem usesTyped_recoverAllStalled (opts : WorkerOpts) (target : JobState) (clock : Clock)
    (ids : List ℕ) :
    UsesTyped (g.recoverAllStalled opts target clock ids : StoreM D R P (List ℕ × List ℕ)) := by
  have hone : ∀ jobId, UsesTyped
      (g.recoverStalled opts target jobId clock : StoreM D R P (Option Bool)) := by
    intro jobId
    refine .bind (usesTyped_attempt rfl) fun lockExists => ?_
    split_ifs
    · refine .bind (usesTyped_attempt rfl) fun stalledCount => ?_
      refine .bind (usesTyped_call rfl) fun attemptsMade => ?_
      refine .bind (usesTyped_call rfl) fun prev => ?_
      split_ifs
      · exact .bind (usesTyped_moveJobToState _ _ _ _ _ _ _) fun _ => usesTyped_pure _
      · exact .bind (usesTyped_moveJobToState _ _ _ _ _ _ _) fun _ => usesTyped_pure _
    · exact usesTyped_pure none
  induction ids with
  | nil => exact usesTyped_pure _
  | cons jobId ids ih =>
    refine .bind (hone jobId) fun moved => .bind ih fun rest => ?_
    split
    · exact usesTyped_pure _
    · exact usesTyped_pure _
    · exact usesTyped_pure _

theorem usesTyped_markStalled (ids : List ℕ) :
    UsesTyped (markStalled ids : StoreM D R P Unit) := by
  induction ids with
  | nil => exact usesTyped_pure ()
  | cons jobId ids ih =>
    refine .bind (usesTyped_attempt rfl) fun lockExists => ?_
    split_ifs
    · exact ih
    · refine .bind (usesTyped_attempt rfl) fun _ => ?_
      exact .bind (usesTyped_attempt rfl) fun _ => ih

theorem usesTyped_makeStalledJobsWait (opts : WorkerOpts) (clock : Clock) :
    UsesTyped (g.makeStalledJobsWait opts clock : StoreM D R P (List ℕ × List ℕ)) := by
  refine .bind (usesTyped_attempt rfl) fun checkKeyExists => ?_
  split
  · exact usesTyped_pure _
  · refine .bind (usesTyped_attempt rfl) fun _ => ?_
    refine .bind (usesTyped_attempt rfl) fun stalled => ?_
    split
    · exact usesTyped_recoverAllStalled _ _ _ _
    · refine .bind (usesTyped_attempt rfl) fun active => ?_
      exact .bind (usesTyped_markStalled active) fun _ => usesTyped_pure _

inductive Operation (D R P : Type)
  | moveToActive (token : JobToken) (opts : WorkerOpts)
  | updateProcessingCount (increment : Bool) (workerId : Uuid) (jobId : ℕ) (state : JobState)
  | processJob (job : Job D R P) (token : JobToken) (workerId : Uuid)
      (entry : Option (JobMeta D R P)) (returned : Except CaughtError R)
  | extendLock (jobId lockDuration : ℕ) (token : JobToken)
  | makeStalledJobsWait (opts : WorkerOpts)
  | pauseOrResume

/-- The operation, started at the time of the clock. Its answer goes to the caller. -/
def Operation.procedure (g : GenericQueue) (clock : Clock) :
    Operation D R P → StoreM D R P Unit
  | .moveToActive token opts => do
    let _ ← g.moveToActive token opts clock
  | .updateProcessingCount increment workerId jobId state => do
    let _ ← g.updateProcessingCount increment workerId jobId state
  | .processJob job token workerId entry returned =>
    g.processJob job token workerId entry returned clock
  | .extendLock jobId lockDuration token => do
    let _ ← GenericQueue.extendLock jobId lockDuration token
  | .makeStalledJobsWait opts => do
    let _ ← g.makeStalledJobsWait opts clock
  | .pauseOrResume => do
    let _ ← g.pauseOrResume

theorem usesTyped_operation (clock : Clock) (op : Operation D R P) :
    UsesTyped (op.procedure g clock) := by
  cases op with
  | moveToActive token opts =>
    exact .bind (usesTyped_moveToActive token opts clock) fun _ => usesTyped_pure _
  | updateProcessingCount increment workerId jobId state =>
    exact .bind (usesTyped_updateProcessingCount _ _ _ _) fun _ => usesTyped_pure _
  | processJob job token workerId entry returned =>
    exact usesTyped_processJob job token workerId entry returned clock
  | extendLock jobId lockDuration token =>
    exact .bind (usesTyped_extendLock jobId lockDuration token) fun _ => usesTyped_pure _
  | makeStalledJobsWait opts =>
    exact .bind (usesTyped_makeStalledJobsWait opts clock) fun _ => usesTyped_pure _
  | pauseOrResume => exact .bind usesTyped_pauseOrResume fun _ => usesTyped_pure _

end GenericQueue

/-! ### Runs -/

namespace RedisStore

open GenericQueue

/-- One operation of a queue, with the time at which it starts. Every operation is a party of
its own, so that the calls of several operations may alternate or follow each other. -/
structure Started (D R P : Type) where
  queue : GenericQueue
  clock : Clock
  operation : Operation D R P

/-- The keyspace after the turns of the operations, each turn one call at its own time. -/
def keyspaceAfter {ι : Type} [DecidableEq ι] (T : CaseTable) (st : RedisStore)
    (codec : RedisCodec D R P) (ops : ι → Started D R P) (turns : List (Clock × ι))
    (db : Keyspace (QueueStreamEvent R P)) : Keyspace (QueueStreamEvent R P) :=
  (Pool.play (perform T st codec)
    ⟨fun i => ((ops i).operation.procedure (ops i).queue (ops i).clock).run, db⟩ turns).state

theorem wellTyped_keyspaceAfter {ι : Type} [DecidableEq ι] {T : CaseTable} {st : RedisStore}
    {suffix : CollectionSuffix} {db : Keyspace (QueueStreamEvent R P)}
    (h : st.WellTyped T suffix db) (codec : RedisCodec D R P) (ops : ι → Started D R P)
    (turns : List (Clock × ι)) :
    st.WellTyped T suffix (st.keyspaceAfter T codec ops turns db) := by
  have hcall : ∀ (clock : Clock) (c : StoreCall R P) (s : Keyspace (QueueStreamEvent R P)),
      c.typed = true → st.WellTyped T suffix s →
        st.WellTyped T suffix (perform T st codec clock c s).2 :=
    fun clock c s hc hs => hs.perform codec clock hc
  unfold keyspaceAfter
  refine Pool.play_keeps hcall (fun i => ?_) h turns
  exact usesTyped_operation (ops i).clock (ops i).operation

/-! ### The check for stalled jobs -/

/-- A list under the key of the paused jobs is taken for a set of another type. -/
theorem smembers_of_wellTyped {T : CaseTable} {st : RedisStore} {db : Keyspace M}
    (h : st.WellTyped T .paused db) :
    db.smembers (st.key T .paused) =
      if db.lists (st.key T .paused) = [] then .ok [] else .error .wrongType := by
  have hnot : ∀ υ, υ ≠ .list → ¬ (db.slot (st.key T .paused)).Holds υ :=
    fun υ hne hυ => hne (Option.some.inj (h υ hυ)).symm
  have hcounter : db.strings (st.key T .paused) = none := not_not.mp (hnot .counter (by simp))
  have hzset : db.zsets (st.key T .paused) = [] := not_not.mp (hnot .zset (by simp))
  have hhash : db.hashes (st.key T .paused) = [] := not_not.mp (hnot .hash (by simp))
  have hstream : db.streams (st.key T .paused) = [] := not_not.mp (hnot .stream (by simp))
  have hset : db.sets (st.key T .paused) = [] := not_not.mp (hnot .set (by simp))
  have htext : db.texts (st.key T .paused) = none := not_not.mp (hnot .text (by simp))
  by_cases hlist : db.lists (st.key T .paused) = []
  · simp [Keyspace.smembers, Server.keyExists, hcounter, hzset, hhash, hstream, hset, htext, hlist]
  · simp [Keyspace.smembers, Server.keyExists, hlist]

theorem setLock_stalledCheck (T : CaseTable) (st : RedisStore) (codec : JobCodec D R P)
    (db : Keyspace M) (ms : ℕ) (clock : Clock) :
    (¬ Keyspace.ValidTtl ms clock.instant ∧
        Calls.setLock T st db codec .stalledCheck none ms clock = (.error .server, db)) ∨
      Keyspace.ValidTtl ms clock.instant ∧ ∃ db',
        db.psetex (st.key T .stalledCheck) (integerText clock.utc.timestampMicros) ms
          clock.instant = some db' ∧
        Calls.setLock T st db codec .stalledCheck none ms clock = (.ok (), db') := by
  by_cases hms : Keyspace.ValidTtl ms clock.instant
  · right
    simp [Calls.setLock, Keyspace.psetex, hms]
  · left
    simp [Calls.setLock, Keyspace.psetex, hms]

/-- The listing of the stalled jobs fails while a job is paused, and finds none otherwise. -/
theorem getJobIdsInState_stalled {T : CaseTable} {st : RedisStore} {db : Keyspace M}
    (h : st.WellTyped T .paused db) :
    Calls.getJobIdsInState T st db .stalled none none =
      if db.lists (st.key T .paused) = [] then .ok [] else .error .server := by
  have hmembers : db.smembers (st.key T (.ofJobState .stalled)) =
      if db.lists (st.key T .paused) = [] then .ok [] else .error .wrongType :=
    smembers_of_wellTyped h
  unfold Calls.getJobIdsInState
  rw [if_pos rfl, hmembers]
  split_ifs <;> rfl

/-- In a state that operations of the queue reach, in any order of their calls, the check for
stalled jobs changes no key but that of its marker and publishes nothing. It fails if the marker
cannot be set or if a job is paused, and otherwise reports no job. -/
theorem stalled_check_recovers_nothing {ι : Type} [DecidableEq ι] {T : CaseTable}
    {st : RedisStore} {db : Keyspace (QueueStreamEvent R P)} (h : st.WellTyped T .paused db)
    (codec : RedisCodec D R P) (ops : ι → Started D R P) (turns : List (Clock × ι))
    (g : GenericQueue) (opts : WorkerOpts) (clock : Clock) :
    let before := (st.keyspaceAfter T codec ops turns db).purge clock.instant
    let out := (g.makeStalledJobsWait opts clock).exec (perform T st codec clock)
      (st.keyspaceAfter T codec ops turns db)
    (∀ k, k ≠ st.key T .stalledCheck → out.2.slot k = before.slot k) ∧
      out.2.published = before.published ∧
      out.1 =
        if before.keyExists (st.key T .stalledCheck) then .ok ([], [])
        else if ¬ Keyspace.ValidTtl opts.stalledInterval clock.instant ∨
            before.lists (st.key T .paused) ≠ [] then
          .error .server
        else .ok ([], []) := by
  have htyped := wellTyped_keyspaceAfter h codec ops turns
  generalize st.keyspaceAfter T codec ops turns db = db' at htyped ⊢
  intro before out
  have hbefore : st.WellTyped T .paused before := htyped.erases (db'.erases_purge clock.instant)
  have hagain : before.purge clock.instant = before := db'.purge_purge clock.instant
  have hexists : (Store.existsIn .stalledCheck 0 : StoreM D R P Bool).exec
      (perform T st codec clock) db' = (.ok (before.keyExists (st.key T .stalledCheck)), before) :=
    rfl
  have hsame : ∀ {db'' : Keyspace (QueueStreamEvent R P)} {value : Text},
      before.psetex (st.key T .stalledCheck) value opts.stalledInterval clock.instant = some db'' →
        ∀ k, k ≠ st.key T .stalledCheck → (db''.purge clock.instant).slot k = before.slot k := by
    intro db'' value hset k hk
    rw [Keyspace.slot_purge, Keyspace.slot_psetex hset, if_neg hk, ← Keyspace.slot_purge, hagain]
  have hne : st.key T .paused ≠ st.key T .stalledCheck := by
    intro heq
    cases key_injective T st heq
  have hout : out = (g.makeStalledJobsWait opts clock).exec (perform T st codec clock) db' := rfl
  rw [makeStalledJobsWait, Procedure.exec_bind_of_ok _ hexists] at hout
  cases hmarker : before.keyExists (st.key T .stalledCheck) with
  | true =>
    rw [hmarker] at hout
    rw [hout]
    exact ⟨fun k _ => rfl, rfl, rfl⟩
  | false =>
    rw [hmarker] at hout
    simp only [Bool.false_eq_true, if_false] at hout ⊢
    have hcall : (Store.setLock .stalledCheck none opts.stalledInterval :
        StoreM D R P Unit).exec (perform T st codec clock) before =
          Calls.setLock T st (before.purge clock.instant) codec.job .stalledCheck none
            opts.stalledInterval clock := rfl
    rw [hagain] at hcall
    rcases setLock_stalledCheck T st codec.job before opts.stalledInterval clock with
      ⟨hinvalid, hlock⟩ | ⟨hvalid, db'', hset, hlock⟩
    · rw [Procedure.exec_bind_of_error _ (hcall.trans hlock)] at hout
      rw [hout, if_pos (Or.inl hinvalid)]
      exact ⟨fun k _ => rfl, rfl, rfl⟩
    · have hmarked : st.WellTyped T .paused (db''.purge clock.instant) :=
        (hbefore.writes .stalledCheck (Keyspace.writes_psetex hset) fun heq => by
          cases heq).erases (db''.erases_purge clock.instant)
      have hpaused : (db''.purge clock.instant).lists (st.key T .paused) =
          before.lists (st.key T .paused) := congrArg Slot.list (hsame hset _ hne)
      have hpublished : db''.published = before.published := Keyspace.published_psetex hset
      have hlisting : (Store.getJobIdsInState .stalled none none : StoreM D R P (List ℕ)).exec
          (perform T st codec clock) db'' =
            (if before.lists (st.key T .paused) = [] then .ok [] else .error .server,
              db''.purge clock.instant) := by
        rw [← hpaused, ← getJobIdsInState_stalled hmarked]
        rfl
      rw [Procedure.exec_bind_of_ok _ (hcall.trans hlock)] at hout
      by_cases hlist : before.lists (st.key T .paused) = []
      · rw [if_pos hlist] at hlisting
        rw [Procedure.exec_bind_of_ok _ hlisting, List.isEmpty_nil, if_pos rfl] at hout
        have hnone : ¬ (¬ Keyspace.ValidTtl opts.stalledInterval clock.instant ∨
            before.lists (st.key T .paused) ≠ []) := by
          simp [hvalid, hlist]
        rw [hout, if_neg hnone]
        exact ⟨hsame hset, hpublished, rfl⟩
      · rw [if_neg hlist] at hlisting
        rw [Procedure.exec_bind_of_error _ hlisting] at hout
        rw [hout, if_pos (Or.inr hlist)]
        exact ⟨hsame hset, hpublished, rfl⟩

theorem wellTyped_of_mirrors {T : CaseTable} {st : RedisStore} {codec : JobCodec D R P} {now : ℕ}
    {s : InMemoryStore D R P} {db : Keyspace (QueueStreamEvent R P)}
    (h : Mirrors T st codec now s db) : st.WellTyped T .paused db := by
  intro υ hυ
  have hslot : db.slot (st.key T .paused) = { list := s.paused.values } := h.slots .paused
  rw [hslot] at hυ
  cases υ with
  | list => rfl
  | _ => simp [Slot.Holds] at hυ

/-- The queue of the two mails is paused while a worker fetches one of them. -/
def pausedMails : Bool → Started String String ℕ
  | true => ⟨Fleet.mailGeneric, ⟨2000, 1⟩, .moveToActive ⟨1, 2, 3⟩ {}⟩
  | false => ⟨Fleet.mailGeneric, ⟨2000, 1⟩, .pauseOrResume⟩

def pausedMailTurns : List (Clock × Bool) :=
  [(⟨2000, 1⟩, true), (⟨3000, 2⟩, false), (⟨3000, 2⟩, false), (⟨4000, 3⟩, false)]

theorem stalled_check_of_pausedMails :
    ((Fleet.mailGeneric.makeStalledJobsWait {} ⟨5000, 4⟩).exec
      (perform .ascii mailStore Fleet.mailRedisCodec ⟨5000, 4⟩)
      (mailStore.keyspaceAfter .ascii Fleet.mailRedisCodec pausedMails pausedMailTurns
        Fleet.mailFleet.store)).1 = .error .server := by
  have hmarker : ((mailStore.keyspaceAfter .ascii Fleet.mailRedisCodec pausedMails pausedMailTurns
      Fleet.mailFleet.store).purge 4).keyExists (mailStore.key .ascii .stalledCheck) = false := by
    decide +kernel
  have hpaused : ((mailStore.keyspaceAfter .ascii Fleet.mailRedisCodec pausedMails pausedMailTurns
      Fleet.mailFleet.store).purge 4).lists (mailStore.key .ascii .paused) ≠ [] := by
    decide +kernel
  obtain ⟨-, -, hresult⟩ := stalled_check_recovers_nothing
    (wellTyped_of_mirrors Fleet.mailFleet_matches.store) Fleet.mailRedisCodec pausedMails
    pausedMailTurns Fleet.mailGeneric {} ⟨5000, 4⟩
  rw [hresult, hmarker, if_neg Bool.false_ne_true, if_pos (Or.inr hpaused)]

end RedisStore

end Kiomq
