import Kiomq.Redis.Isolation
import Kiomq.Redis.Store
import Kiomq.Stores.TimedRuns

/-!
# The same queue in both stores

A keyspace mirrors an in-memory store if every key of the queue holds what the store has in
the collection of that name: the lists in their order, the sorted sets as members with their
scores, the records as hashes that represent them, and the locks as texts that are live at
the same times. The events are the messages on the channel of the queue. The priority
counter is left out: an idle queue deletes it on the server, and keeps it in memory.
A change of one collection and of the slot of its key keeps the two mirrors of each other.
-/

namespace Kiomq

open Foundations Redis

variable {D R P : Type}

inductive Listed
  | wait
  | active
  | paused
  deriving DecidableEq, Repr

def Listed.suffix : Listed → CollectionSuffix
  | wait => .wait
  | active => .active
  | paused => .paused

namespace InMemoryStore

def deque (s : InMemoryStore D R P) : Listed → ConcurrentDeque ℕ
  | .wait => s.waiting
  | .active => s.active
  | .paused => s.paused

def setDeque (s : InMemoryStore D R P) (col : Listed) (d : ConcurrentDeque ℕ) :
    InMemoryStore D R P :=
  match col with
  | .wait => { s with waiting := d }
  | .active => { s with active := d }
  | .paused => { s with paused := d }

def setScores (s : InMemoryStore D R P) (col : Scored) (m : OrderedMap ℕ ℕ) :
    InMemoryStore D R P :=
  match col with
  | .completed => { s with completed := m }
  | .failed => { s with failed := m }
  | .delayed => { s with delayed := m }
  | .prioritized => { s with prioritized := m }

end InMemoryStore

namespace TimedMap

variable {κ V : Type} [LinearOrder κ]

theorem visible_insertExpirable {m : TimedMap κ V} (h : m.disableExpiration = false)
    (key key' : κ) (val : V) (timeout now t : ℕ) :
    (m.insertExpirable key val timeout now).content.visible t key' =
      if key' = key then if now + timeout ≤ t then none else some val
      else m.content.visible t key' := by
  rw [content_insertExpirable h]
  by_cases hkey : key' = key
  · rw [hkey, ExpiringMap.visible_insert_self, if_pos rfl]
    by_cases hlate : now + timeout ≤ t
    · rw [if_pos hlate, if_neg (WithTop.coe_le_coe.mpr hlate).not_gt]
    · rw [if_neg hlate, if_pos (WithTop.coe_lt_coe.mpr (Nat.lt_of_not_le hlate))]
  · simp only [ExpiringMap.visible, ExpiringMap.insert, if_neg hkey]

theorem visible_remove (m : TimedMap κ V) (key key' : κ) (t : ℕ) :
    (m.remove key).content.visible t key' =
      if key' = key then none else m.content.visible t key' := by
  rw [content_remove]
  simp only [ExpiringMap.visible, ExpiringMap.erase]
  split_ifs <;> rfl

end TimedMap

/-- The text that is live at a time. -/
def Redis.Slot.liveText (slot : Slot) (t : ℕ) : Option Text :=
  if slot.expired t then none else slot.text

/-- A sorted set has the entries of a scored collection, each member once. -/
structure HoldsScored (z : List (ℕ × ℤ)) (m : OrderedMap ℕ ℕ) : Prop where
  perm : z.Perm (m.entries.map fun e => (e.2, (e.1 : ℤ)))
  once : m.values.Nodup

/-- The hash of a record, or nothing if there is no record. -/
def HoldsRecord (codec : JobCodec D R P) (hash : List (String × Text)) :
    Option (Job D R P) → Prop
  | none => hash = []
  | some job => codec.format.Represents hash job

/-- The text of the lock of a job. The marker of the stalled check is a time that nobody
reads. -/
def HoldsLock (codec : JobCodec D R P) (col : CollectionSuffix) (lock : Lock) (text : Text) :
    Prop :=
  match col with
  | .lock _ => ∃ token, lock = .token token ∧ text = codec.token.compact token
  | _ => True

/-- The counter of jobs in processing, the pause flag and the event mode. The first use of
the counter creates its field. -/
structure HoldsMeta (hash : List (String × Text)) (n : ℕ) (isPaused : Bool)
    (mode : QueueEventMode) : Prop where
  processing : (Server.lookupField hash "processing").elim (n = 0)
    fun text => text = Nat.toDigits 10 n
  small : n < 2 ^ 63
  paused : (Server.lookupField hash "paused").isSome = isPaused
  eventMode : Server.lookupField hash "event_mode" = some mode.text

/-- The slot of a lock, which is live in both stores at the same times from `now` on. -/
def HoldsLive (codec : JobCodec D R P) (now : ℕ) (s : InMemoryStore D R P)
    (col : CollectionSuffix) (slot : Slot) : Prop :=
  ∃ text deadline, slot = { text, expiresAt := deadline } ∧
    ∀ t, now ≤ t →
      Option.Rel (HoldsLock codec col) (s.locks.content.visible t col) (slot.liveText t)

/-- The slot of a key against the collection of its name, from the time `now` on. -/
def Mirrored (codec : JobCodec D R P) (now : ℕ) (s : InMemoryStore D R P) :
    CollectionSuffix → Slot → Prop
  | .wait, slot => slot = { list := s.waiting.values }
  | .active, slot => slot = { list := s.active.values }
  | .paused, slot => slot = { list := s.paused.values }
  | .completed, slot => ∃ z, slot = { zset := z } ∧ HoldsScored z s.completed
  | .failed, slot => ∃ z, slot = { zset := z } ∧ HoldsScored z s.failed
  | .prioritized, slot => ∃ z, slot = { zset := z } ∧ HoldsScored z s.prioritized
  | .delayed, slot => ∃ z, slot = { zset := z } ∧ HoldsScored z s.delayed
  | .stalled, slot => ∃ l, slot = { set := l } ∧ l.Perm s.stalled.keys
  | .job id, slot => ∃ h, slot = { hash := h } ∧ HoldsRecord codec h (s.getJob id)
  | .metaKey, slot => ∃ h, slot = { hash := h } ∧ HoldsMeta h s.processing s.isPaused s.eventMode
  | .lock id, slot => HoldsLive codec now s (.lock id) slot
  | .stalledCheck, slot => HoldsLive codec now s .stalledCheck slot
  | .id, slot => ∃ n, slot = { counter := n } ∧ n.getD 0 = s.idCounter
  | _, _ => True

/-- The keyspace mirrors the store from the time `now` on. -/
structure Mirrors (T : CaseTable) (st : RedisStore) (codec : JobCodec D R P) (now : ℕ)
    (s : InMemoryStore D R P) (db : Keyspace (QueueStreamEvent R P)) : Prop where
  slots : ∀ suffix, Mirrored codec now s suffix (db.slot (st.key T suffix))
  events : (db.published.filter fun m => m.1 = st.eventsKey T).map Prod.snd = s.events
  expiring : s.locks.disableExpiration = false

/-! ### Frames -/

theorem RedisStore.key_injective (T : CaseTable) (st : RedisStore) :
    Function.Injective (st.key T) := fun _ _ h =>
  CollectionSuffix.suffix_eq_of_toCollectionName_eq h

theorem Mirrored.mono {codec : JobCodec D R P} {now now' : ℕ} (hle : now ≤ now')
    {s : InMemoryStore D R P} {suffix : CollectionSuffix} {slot : Slot}
    (h : Mirrored codec now s suffix slot) : Mirrored codec now' s suffix slot := by
  cases suffix with
  | lock id =>
    obtain ⟨text, deadline, hslot, hlive⟩ := h
    exact ⟨text, deadline, hslot, fun t ht => hlive t (hle.trans ht)⟩
  | stalledCheck =>
    obtain ⟨text, deadline, hslot, hlive⟩ := h
    exact ⟨text, deadline, hslot, fun t ht => hlive t (hle.trans ht)⟩
  | _ => exact h

namespace Mirrors

variable {T : CaseTable} {st : RedisStore} {codec : JobCodec D R P} {now : ℕ}
  {s s' : InMemoryStore D R P} {db db' : Keyspace (QueueStreamEvent R P)}

theorem mono (h : Mirrors T st codec now s db) {now' : ℕ} (hle : now ≤ now') :
    Mirrors T st codec now' s db :=
  ⟨fun suffix => (h.slots suffix).mono hle, h.events, h.expiring⟩

theorem write (h : Mirrors T st codec now s db) (suffix : CollectionSuffix)
    (hslots : ∀ k, k ≠ st.key T suffix → db'.slot k = db.slot k)
    (hpublished : db'.published = db.published)
    (hstore : ∀ suffix', suffix' ≠ suffix → ∀ slot, Mirrored codec now s suffix' slot →
      Mirrored codec now s' suffix' slot)
    (hevents : s'.events = s.events)
    (hexpiring : s'.locks.disableExpiration = s.locks.disableExpiration)
    (hnew : Mirrored codec now s' suffix (db'.slot (st.key T suffix))) :
    Mirrors T st codec now s' db' := by
  refine ⟨fun suffix' => ?_, ?_, hexpiring.trans h.expiring⟩
  · by_cases hsuffix : suffix' = suffix
    · rw [hsuffix]
      exact hnew
    · have hkey : st.key T suffix' ≠ st.key T suffix := fun heq =>
        hsuffix (st.key_injective T heq)
      rw [hslots _ hkey]
      exact hstore suffix' hsuffix _ (h.slots suffix')
  · rw [hpublished, hevents]
    exact h.events

theorem writeStore (h : Mirrors T st codec now s db)
    (hstore : ∀ suffix slot, Mirrored codec now s suffix slot → Mirrored codec now s' suffix slot)
    (hevents : s'.events = s.events)
    (hexpiring : s'.locks.disableExpiration = s.locks.disableExpiration) :
    Mirrors T st codec now s' db :=
  ⟨fun suffix => hstore suffix _ (h.slots suffix), hevents ▸ h.events,
    hexpiring.trans h.expiring⟩

end Mirrors

theorem HoldsLive.purge {codec : JobCodec D R P} {now : ℕ} {s : InMemoryStore D R P}
    {col : CollectionSuffix} {slot : Slot} (h : HoldsLive codec now s col slot) :
    HoldsLive codec now s col (slot.purge now) := by
  obtain ⟨text, deadline, hslot, hlive⟩ := h
  cases hexpired : slot.expired now with
  | false =>
    have hsame : slot.purge now = slot := by simp [Slot.purge, hexpired]
    rw [hsame]
    exact ⟨text, deadline, hslot, hlive⟩
  | true =>
    have hnone : slot.purge now = {} := by simp [Slot.purge, hexpired]
    refine ⟨none, none, hnone, fun t ht => ?_⟩
    have hgone : slot.liveText t = none := by
      obtain ⟨d, hd, hle⟩ := (Option.any_eq_true _ _).mp hexpired
      have hlate : d ≤ t := (of_decide_eq_true hle).trans ht
      simp [Slot.liveText, Slot.expired, hd, hlate]
    have hempty : (slot.purge now).liveText t = none := by
      rw [hnone]
      rfl
    rw [hempty, ← hgone]
    exact hlive t ht

/-- Only the keys of locks have deadlines, so that the purge leaves the others. -/
theorem Mirrored.purge {codec : JobCodec D R P} {now : ℕ} {s : InMemoryStore D R P}
    {suffix : CollectionSuffix} {slot : Slot} (h : Mirrored codec now s suffix slot) :
    Mirrored codec now s suffix (slot.purge now) := by
  cases suffix with
  | wait | active | paused =>
    obtain rfl : slot = _ := h
    rfl
  | completed | failed | prioritized | delayed | stalled | job _ | metaKey | id =>
    obtain ⟨x, rfl, hx⟩ := h
    exact ⟨x, rfl, hx⟩
  | lock id | stalledCheck => exact HoldsLive.purge h
  | _ => trivial

theorem Mirrors.purge {T : CaseTable} {st : RedisStore} {codec : JobCodec D R P} {now : ℕ}
    {s : InMemoryStore D R P} {db : Keyspace (QueueStreamEvent R P)}
    (h : Mirrors T st codec now s db) : Mirrors T st codec now s (db.purge now) := by
  refine ⟨fun suffix => ?_, h.events, h.expiring⟩
  rw [Keyspace.slot_purge]
  exact (h.slots suffix).purge

/-! ### The slots of the collections -/

def CollectionSuffix.isLock : CollectionSuffix → Bool
  | .lock _ | .stalledCheck => true
  | _ => false

namespace Mirrors

variable {T : CaseTable} {st : RedisStore} {codec : JobCodec D R P} {now : ℕ}
  {s : InMemoryStore D R P} {db : Keyspace (QueueStreamEvent R P)}

/-! ### Lists -/

theorem slot_listed (h : Mirrors T st codec now s db) (col : Listed) :
    db.slot (st.key T col.suffix) = { list := (s.deque col).values } := by
  cases col with
  | wait => exact h.slots .wait
  | active => exact h.slots .active
  | paused => exact h.slots .paused

theorem lists_eq (h : Mirrors T st codec now s db) (col : Listed) :
    db.lists (st.key T col.suffix) = (s.deque col).values :=
  congrArg Slot.list (h.slot_listed col)

theorem setDeque (h : Mirrors T st codec now s db) (col : Listed) {d : ConcurrentDeque ℕ}
    {l : List ℕ} (hl : l = d.values) :
    Mirrors T st codec now (s.setDeque col d) (db.onServer fun r =>
      { r with lists := Function.update r.lists (st.key T col.suffix) l }) := by
  subst hl
  have hnew : Mirrored codec now (s.setDeque col d) col.suffix
      ((db.onServer fun r => { r with
        lists := Function.update r.lists (st.key T col.suffix) d.values }).slot
          (st.key T col.suffix)) := by
    rw [Keyspace.slot_setList, if_pos rfl, h.slot_listed col]
    cases col <;> rfl
  refine h.write col.suffix (fun k hk => ?_) rfl (fun suffix hne slot hslot => ?_) ?_ ?_ hnew
  · rw [Keyspace.slot_setList, if_neg hk]
  · cases col <;> cases suffix <;> first | exact hslot | exact absurd rfl hne
  · cases col <;> rfl
  · cases col <;> rfl

/-! ### Sorted sets -/

theorem slot_scored (h : Mirrors T st codec now s db) (col : Scored) :
    ∃ z, db.slot (st.key T col.suffix) = { zset := z } ∧ HoldsScored z (s.scores col) := by
  cases col with
  | completed => exact h.slots .completed
  | failed => exact h.slots .failed
  | delayed => exact h.slots .delayed
  | prioritized => exact h.slots .prioritized

theorem zsets_holds (h : Mirrors T st codec now s db) (col : Scored) :
    HoldsScored (db.zsets (st.key T col.suffix)) (s.scores col) := by
  obtain ⟨z, hslot, hz⟩ := h.slot_scored col
  rw [show db.zsets (st.key T col.suffix) = z from congrArg Slot.zset hslot]
  exact hz

theorem setScores (h : Mirrors T st codec now s db) (col : Scored) {m : OrderedMap ℕ ℕ}
    {z : List (ℕ × ℤ)} (hz : HoldsScored z m) :
    Mirrors T st codec now (s.setScores col m) (db.onServer fun r =>
      { r with zsets := Function.update r.zsets (st.key T col.suffix) z }) := by
  have hnew : Mirrored codec now (s.setScores col m) col.suffix
      ((db.onServer fun r => { r with
        zsets := Function.update r.zsets (st.key T col.suffix) z }).slot
          (st.key T col.suffix)) := by
    obtain ⟨z', hslot, -⟩ := h.slot_scored col
    rw [Keyspace.slot_setZset, if_pos rfl, hslot]
    cases col <;> exact ⟨z, rfl, hz⟩
  refine h.write col.suffix (fun k hk => ?_) rfl (fun suffix hne slot hslot => ?_) ?_ ?_ hnew
  · rw [Keyspace.slot_setZset, if_neg hk]
  · cases col <;> cases suffix <;> first | exact hslot | exact absurd rfl hne
  · cases col <;> rfl
  · cases col <;> rfl

/-! ### Stalled jobs, records and the metadata -/

theorem slot_stalled (h : Mirrors T st codec now s db) :
    ∃ l, db.slot (st.key T .stalled) = { set := l } ∧ l.Perm s.stalled.keys := h.slots .stalled

theorem sets_perm (h : Mirrors T st codec now s db) :
    (db.sets (st.key T .stalled)).Perm s.stalled.keys := by
  obtain ⟨l, hslot, hl⟩ := h.slot_stalled
  rw [show db.sets (st.key T .stalled) = l from congrArg Slot.set hslot]
  exact hl

theorem setStalled (h : Mirrors T st codec now s db) {m : OrderedMap ℕ Unit} {l : List ℕ}
    (hl : l.Perm m.keys) :
    Mirrors T st codec now { s with stalled := m }
      { db with sets := Function.update db.sets (st.key T .stalled) l } := by
  have hnew : Mirrored codec now { s with stalled := m } .stalled
      (({ db with sets := Function.update db.sets (st.key T .stalled) l }).slot
        (st.key T .stalled)) := by
    obtain ⟨l', hslot, -⟩ := h.slot_stalled
    rw [Keyspace.slot_setSet, if_pos rfl, hslot]
    exact ⟨l, rfl, hl⟩
  refine h.write .stalled (fun k hk => ?_) rfl (fun suffix hne slot hslot => ?_) rfl rfl hnew
  · rw [Keyspace.slot_setSet, if_neg hk]
  · cases suffix <;> first | exact hslot | exact absurd rfl hne

theorem slot_job (h : Mirrors T st codec now s db) (id : ℕ) :
    ∃ hash, db.slot (st.recordKey T id) = { hash } ∧ HoldsRecord codec hash (s.getJob id) :=
  h.slots (.job id)

theorem hashes_record (h : Mirrors T st codec now s db) (id : ℕ) :
    HoldsRecord codec (db.hashes (st.recordKey T id)) (s.getJob id) := by
  obtain ⟨hash, hslot, hrecord⟩ := h.slot_job id
  rw [show db.hashes (st.recordKey T id) = hash from congrArg Slot.hash hslot]
  exact hrecord

theorem setRecord (h : Mirrors T st codec now s db) (id : ℕ) (jobs : RecordMap D R P)
    (hash : List (String × Text))
    (hother : ∀ j, j ≠ id → jobs.get (.job j) = s.jobs.get (.job j))
    (hrecord : HoldsRecord codec hash (jobs.get (.job id))) :
    Mirrors T st codec now { s with jobs } (db.onServer fun r =>
      { r with hashes := Function.update r.hashes (st.recordKey T id) hash }) := by
  have hnew : Mirrored codec now { s with jobs } (.job id)
      ((db.onServer fun r => { r with
        hashes := Function.update r.hashes (st.recordKey T id) hash }).slot
          (st.key T (.job id))) := by
    obtain ⟨hash', hslot, -⟩ := h.slot_job id
    have hkey : st.key T (.job id) = st.recordKey T id := rfl
    rw [hkey, Keyspace.slot_setHash, if_pos rfl, hslot]
    exact ⟨hash, rfl, hrecord⟩
  refine h.write (.job id) (fun k hk => ?_) rfl (fun suffix hne slot hslot => ?_) rfl rfl hnew
  · exact (Keyspace.slot_setHash _ _ _ _).trans (if_neg hk)
  · cases suffix with
    | job j =>
      obtain ⟨hash', hslot', hj⟩ := hslot
      refine ⟨hash', hslot', ?_⟩
      rw [show InMemoryStore.getJob { s with jobs } j = s.getJob j from
        hother j fun heq => hne (congrArg _ heq)]
      exact hj
    | _ => exact hslot

theorem slot_meta (h : Mirrors T st codec now s db) :
    ∃ hash, db.slot (st.metaKey T) = { hash } ∧
      HoldsMeta hash s.processing s.isPaused s.eventMode :=
  h.slots .metaKey

theorem hashes_meta (h : Mirrors T st codec now s db) :
    HoldsMeta (db.hashes (st.metaKey T)) s.processing s.isPaused s.eventMode := by
  obtain ⟨hash, hslot, hmeta⟩ := h.slot_meta
  rw [show db.hashes (st.metaKey T) = hash from congrArg Slot.hash hslot]
  exact hmeta

theorem setMeta (h : Mirrors T st codec now s db) (processing : ℕ) (isPaused : Bool)
    {hash : List (String × Text)} (hmeta : HoldsMeta hash processing isPaused s.eventMode) :
    Mirrors T st codec now { s with processing, isPaused } (db.onServer fun r =>
      { r with hashes := Function.update r.hashes (st.metaKey T) hash }) := by
  have hnew : Mirrored codec now { s with processing, isPaused } .metaKey
      ((db.onServer fun r => { r with
        hashes := Function.update r.hashes (st.metaKey T) hash }).slot (st.key T .metaKey)) := by
    obtain ⟨hash', hslot, -⟩ := h.slot_meta
    have hkey : st.key T .metaKey = st.metaKey T := rfl
    rw [hkey, Keyspace.slot_setHash, if_pos rfl, hslot]
    exact ⟨hash, rfl, hmeta⟩
  refine h.write .metaKey (fun k hk => ?_) rfl (fun suffix hne slot hslot => ?_) rfl rfl hnew
  · exact (Keyspace.slot_setHash _ _ _ _).trans (if_neg hk)
  · cases suffix <;> first | exact hslot | exact absurd rfl hne

/-! ### Locks -/

theorem slot_lock (h : Mirrors T st codec now s db) {col : CollectionSuffix}
    (hcol : col.isLock = true) :
    ∃ text deadline, db.slot (st.key T col) = { text, expiresAt := deadline } ∧
      ∀ t, now ≤ t → Option.Rel (HoldsLock codec col) (s.locks.content.visible t col)
        ((db.slot (st.key T col)).liveText t) := by
  cases col with
  | lock id => exact h.slots (.lock id)
  | stalledCheck => exact h.slots .stalledCheck
  | _ => cases hcol

theorem setLocks (h : Mirrors T st codec now s db) {col : CollectionSuffix}
    (hcol : col.isLock = true) {locks : TimedMap CollectionSuffix Lock}
    {db' : Keyspace (QueueStreamEvent R P)} {text : Option Text} {deadline : Option ℕ}
    (hdisable : locks.disableExpiration = false)
    (hother : ∀ col', col' ≠ col → ∀ t, now ≤ t →
      locks.content.visible t col' = s.locks.content.visible t col')
    (hslot : ∀ k, db'.slot k =
      if k = st.key T col then { text, expiresAt := deadline } else db.slot k)
    (hpublished : db'.published = db.published)
    (hlive : ∀ t, now ≤ t → Option.Rel (HoldsLock codec col) (locks.content.visible t col)
      (({ text, expiresAt := deadline } : Slot).liveText t)) :
    Mirrors T st codec now { s with locks } db' := by
  have hself : db'.slot (st.key T col) = { text, expiresAt := deadline } := by
    rw [hslot, if_pos rfl]
  refine h.write col (fun k hk => ?_) hpublished (fun suffix hne slot hm => ?_) rfl
    (hdisable.trans h.expiring.symm) ?_
  · rw [hslot, if_neg hk]
  · cases suffix with
    | lock id | stalledCheck =>
      obtain ⟨text', deadline', hslot', hlive'⟩ := hm
      refine ⟨text', deadline', hslot', fun t ht => ?_⟩
      rw [hother _ hne t ht]
      exact hlive' t ht
    | _ => exact hm
  · rw [hself]
    cases col with
    | lock id | stalledCheck => exact ⟨text, deadline, rfl, hlive⟩
    | _ => cases hcol

theorem evict (h : Mirrors T st codec now s db) {locks : TimedMap CollectionSuffix Lock}
    (hdisable : locks.disableExpiration = s.locks.disableExpiration)
    (hlive : ∀ col t, now ≤ t → locks.content.visible t col = s.locks.content.visible t col) :
    Mirrors T st codec now { s with locks } db := by
  refine h.writeStore (fun suffix slot hm => ?_) rfl hdisable
  cases suffix with
  | lock id | stalledCheck =>
    obtain ⟨text, deadline, hslot, hrel⟩ := hm
    refine ⟨text, deadline, hslot, fun t ht => ?_⟩
    rw [hlive _ t ht]
    exact hrel t ht
  | _ => exact hm

/-- In a keyspace that has just been purged, a lock is there just if it is live. -/
theorem text_rel (h : Mirrors T st codec now s db) (col : CollectionSuffix)
    (hcol : col.isLock = true) (hfresh : ∀ k, (db.slot k).expired now = false) :
    Option.Rel (HoldsLock codec col) (s.locks.content.visible now col)
      (db.texts (st.key T col)) := by
  obtain ⟨text, deadline, -, hrel⟩ := h.slot_lock hcol
  have hlive : (db.slot (st.key T col)).liveText now = db.texts (st.key T col) := by
    simp only [Slot.liveText, hfresh, Bool.false_eq_true, if_false]
    rfl
  rw [← hlive]
  exact hrel now le_rfl

theorem keyExists_lock (h : Mirrors T st codec now s db) (col : CollectionSuffix)
    (hcol : col.isLock = true) (hfresh : ∀ k, (db.slot k).expired now = false) :
    db.keyExists (st.key T col) = s.locks.live col now := by
  obtain ⟨text, deadline, hslot, -⟩ := h.slot_lock hcol
  have hrel := h.text_rel col hcol hfresh
  have htext : db.texts (st.key T col) = text := congrArg Slot.text hslot
  rw [htext] at hrel
  rw [Keyspace.keyExists_eq, hslot, TimedMap.live_eq_visible]
  generalize s.locks.content.visible now col = lock at hrel ⊢
  cases hrel <;> rfl

/-! ### Deletion -/

theorem delete {s' : InMemoryStore D R P} (h : Mirrors T st codec now s db)
    (suffix : CollectionSuffix)
    (hstore : ∀ suffix', suffix' ≠ suffix → ∀ slot, Mirrored codec now s suffix' slot →
      Mirrored codec now s' suffix' slot)
    (hevents : s'.events = s.events)
    (hexpiring : s'.locks.disableExpiration = s.locks.disableExpiration)
    (hnew : Mirrored codec now s' suffix {}) :
    Mirrors T st codec now s' (db.del (st.key T suffix)) := by
  refine h.write suffix (fun k hk => ?_) rfl hstore hevents hexpiring ?_
  · rw [Keyspace.slot_del, if_neg hk]
  · rw [Keyspace.slot_del, if_pos rfl]
    exact hnew

/-! ### Events -/

theorem publish (h : Mirrors T st codec now s db) (event : QueueStreamEvent R P) :
    Mirrors T st codec now (s.publishEvent event)
      (db.onServer fun r => r.exec (.publish (st.eventsKey T) event)) := by
  refine ⟨h.slots, ?_, h.expiring⟩
  change (((db.published ++ [(st.eventsKey T, event)]).filter
    fun m => m.1 = st.eventsKey T).map Prod.snd) = s.events ++ [event]
  rw [List.filter_append, List.map_append, h.events]
  simp

end Mirrors

end Kiomq
