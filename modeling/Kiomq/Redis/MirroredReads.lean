import Kiomq.Redis.Mirror

/-!
# Reading from two stores that mirror each other

A call is admitted where both stores answer it alike. It is not admitted where they are known
to differ: a score that another member has in memory, a member that a list holds twice, a
record that is missing, a listing of stalled jobs, a deadline for a record. The conditions
speak about the in-memory store only. The calls that read are answered alike here.
-/

namespace Kiomq

open Foundations Redis

variable {D R P : Type}

theorem InMemoryStore.getCounter_jobCounter (s : InMemoryStore D R P) (id : ℕ)
    (counter : JobCounter) :
    s.getCounter (.job id) (some counter.field) = (s.getJob id).map counter.value := by
  cases counter <;> cases hjob : s.getJob id <;> simp [getCounter, hjob, JobCounter.field] <;> rfl

/-! ### Admitted calls -/

/-- A scored collection takes a new member under a score that it does not have. A double
holds the score exactly. -/
def AdmitsScore (m : OrderedMap ℕ ℕ) (item : ℕ) : Option ℤ → Prop
  | some x => 0 ≤ x ∧ x < 2 ^ 53 ∧ m.containsKey x.toNat = false ∧ item ∉ m.values
  | none => False

instance decidableAdmitsScore (m : OrderedMap ℕ ℕ) (item : ℕ) :
    ∀ score, Decidable (AdmitsScore m item score)
  | some x =>
    inferInstanceAs
      (Decidable (0 ≤ x ∧ x < 2 ^ 53 ∧ m.containsKey x.toNat = false ∧ item ∉ m.values))
  | none => inferInstanceAs (Decidable False)

/-- The counters that both stores know by the name they are asked for. -/
def AdmitsCounter (s : InMemoryStore D R P) :
    CollectionSuffix → Option CounterName → Prop
  | .job _, some .attemptsMade | .job _, some .stalledCounter => True
  | .job id, some .attemptsMadeSnake => ∀ job ∈ s.getJob id, job.attemptsMade = 0
  | .metaKey, some .processing => True
  | _, _ => False

/-- A paused job is looked for in memory, and the paused list on the server. -/
def AdmitsMember (s : InMemoryStore D R P) (item : ℕ) : CollectionSuffix → Prop
  | .active | .wait | .stalled | .completed | .failed | .delayed | .prioritized | .job _
  | .lock _ | .stalledCheck => True
  | .paused => s.paused.values = [] ∨ item ∈ s.paused.values
  | _ => False

def AdmitsAddition (s : InMemoryStore D R P) (item : ℕ) (score : Option ℤ) :
    CollectionSuffix → Prop
  | .completed => AdmitsScore s.completed item score
  | .failed => AdmitsScore s.failed item score
  | .delayed => AdmitsScore s.delayed item score
  | .prioritized => AdmitsScore s.prioritized item score
  | _ => True

/-- The server removes one occurrence from a list. In memory a score is taken for a member. -/
def AdmitsRemoval (s : InMemoryStore D R P) (item : ℕ) : CollectionSuffix → Prop
  | .active => s.active.values.count item ≤ 1
  | .wait => s.waiting.values.count item ≤ 1
  | .paused => s.paused.values.count item ≤ 1
  | .completed => s.completed.containsKey item = false
  | .failed => s.failed.containsKey item = false
  | .delayed => s.delayed.containsKey item = false
  | .prioritized => s.prioritized.containsKey item = false
  | .job _ | .lock _ => False
  | _ => True

/-- In memory the removal of the completed jobs clears the active list. -/
def AdmitsDeletion : CollectionSuffix → Prop
  | .active | .wait | .paused | .delayed | .failed | .prioritized | .stalled | .job _ | .lock _
  | .stalledCheck | .priorityCounter => True
  | _ => False

def AdmitsLock : CollectionSuffix → Option JobToken → Prop
  | .lock _, some _ => True
  | .stalledCheck, none => True
  | _, _ => False

def AdmitsIncrement (s : InMemoryStore D R P) (delta : ℤ) :
    CollectionSuffix → Option CounterName → Prop
  | .job id, some .attemptsMade =>
    delta = 1 ∧ ∃ job ∈ s.getJob id, job.attemptsMade < 2 ^ 63 - 1
  | .job id, some .stalledCounter =>
    delta = 1 ∧ ∃ job ∈ s.getJob id, job.stalledCounter < 2 ^ 63 - 1
  | .metaKey, some .processing => 0 ≤ s.processing + delta ∧ s.processing + delta < 2 ^ 63
  | _, _ => False

/-- The calls that both stores answer alike. -/
def Admits (clock : Clock) (s : InMemoryStore D R P) : StoreCall R P → Prop
  | .getMetrics | .getState _ | .jobExists _ => True
  | .getJob id => (s.getJob id).isSome = true
  | .fetchJobs ids => ∀ id ∈ ids, (s.getJob id).isSome = true
  | .getToken id =>
    (s.locks.content.visible clock.instant (.lock id)).isSome = true ∨
      ∀ job ∈ s.getJob id, job.token = none
  | .getCounter key hashKey => AdmitsCounter s key hashKey
  | .existsIn col item => AdmitsMember s item col
  | .getJobIdsInState state start stop =>
    start = none ∧ stop = none ∧ (s.idsIn state).length < 2 ^ 63 ∧
      (state = .stalled → s.stalled.keys = [] ∧ s.paused.values = [])
  | .addItem col item score _ => AdmitsAddition s item score col
  | .removeItem col item => AdmitsRemoval s item col
  | .remove key => AdmitsDeletion key
  | .popSet col _ => RedisStore.isScored col = true
  | .popBackPushFront src dst => src = .wait ∧ dst = .active
  | .getDelayedAt start stop =>
    1 ≤ start ∧ start ≤ stop ∧ stop < 2 ^ 63 ∧
      ∀ e ∈ s.delayed.entries, e.1 < 2 ^ 63 ∧ (e.1 : ℤ) ≠ start - 1 ∧ (e.1 : ℤ) ≠ stop
  | .setLock col token lockDuration =>
    Keyspace.ValidTtl lockDuration clock.instant ∧ AdmitsLock col token
  | .setFields id fields =>
    (s.getJob id).isSome = true ∧ fields ≠ [] ∧ fields.countP JobField.isBackTrace ≤ 1 ∧
      ∀ field ∈ fields, field.Fits
  | .incr key delta hashKey => AdmitsIncrement s delta key hashKey
  | .expire col secs =>
    match col with
    | .job id => s.getJob id = none ∧ Keyspace.ValidExpiry secs clock.instant
    | _ => False
  | .publishEvent eventMode _ => eventMode = .pubSub
  | .pause _ => s.waiting.values = [] ∨ s.paused.values = []

namespace Mirrors

variable {T : CaseTable} {st : RedisStore} {codec : JobCodec D R P} {now : ℕ}
  {s : InMemoryStore D R P} {db : Keyspace (QueueStreamEvent R P)}

/-! ### Reading -/

theorem length_zsets (h : Mirrors T st codec now s db) (col : Scored) :
    (db.zsets (st.key T col.suffix)).length = (s.scores col).size := by
  rw [(h.zsets_holds col).perm.length_eq, List.length_map]
  rfl

theorem length_lists (h : Mirrors T st codec now s db) (col : Listed) :
    (db.lists (st.key T col.suffix)).length = (s.deque col).len := by
  rw [h.lists_eq col]
  exact List.length_map _

theorem getMetrics (h : Mirrors T st codec now s db) :
    st.getMetrics T db.toDatabase = some s.getMetrics := by
  have hmeta := h.hashes_meta
  have hprocessing : RedisStore.readField (parseUnsigned 64)
      (db.hget (st.metaKey T) "processing") =
        some ((db.hget (st.metaKey T) "processing").map fun _ => s.processing) := by
    have hfield := hmeta.processing
    change (db.hget (st.metaKey T) "processing").elim _ _ at hfield
    cases hget : db.hget (st.metaKey T) "processing" with
    | none => rfl
    | some text =>
      rw [hget, Option.elim_some] at hfield
      have hsmall : s.processing < 2 ^ 64 := hmeta.small.trans (by norm_num)
      simp only [RedisStore.readField, hfield, parseUnsigned_toDigits hsmall, Option.map_some]
  have hdefault : ((db.hget (st.metaKey T) "processing").map fun _ => s.processing).getD 0 =
      s.processing := by
    have hfield := hmeta.processing
    change (db.hget (st.metaKey T) "processing").elim _ _ at hfield
    cases hget : db.hget (st.metaKey T) "processing" with
    | none =>
      rw [hget, Option.elim_none] at hfield
      exact hfield.symm
    | some text => rfl
  have hmode : db.hget (st.metaKey T) "event_mode" = some s.eventMode.text := hmeta.eventMode
  have hlast : (db.get (st.idKey T)).getD 0 = s.idCounter := by
    obtain ⟨n, hslot, hn⟩ := h.slots .id
    rw [show db.get (st.idKey T) = n from congrArg Slot.counter hslot]
    exact hn
  have hpaused : db.hexists (st.metaKey T) "paused" = s.isPaused := hmeta.paused
  unfold RedisStore.getMetrics
  rw [hprocessing, hmode]
  simp only [Option.bind_some, RedisStore.readField, QueueEventMode.ofText_text, Option.map_some,
    hdefault, Option.getD_some, hlast, hpaused]
  simp only [InMemoryStore.getMetrics, Option.some.injEq, QueueMetrics.mk.injEq, true_and,
    and_true]
  exact ⟨h.length_zsets .prioritized, h.length_lists .active,
    h.sets_perm.length_eq.trans (List.length_map _), h.length_zsets .delayed,
    h.length_zsets .completed, h.length_zsets .failed, h.length_lists .paused,
    h.length_lists .wait⟩

theorem getJob (h : Mirrors T st codec now s db) {id : ℕ} (hid : (s.getJob id).isSome = true)
    (utc : Dt) : st.getJob T codec.format db.toServer utc id = s.getJob id := by
  have hrecord := h.hashes_record id
  obtain ⟨job, hjob⟩ := Option.isSome_iff_exists.mp hid
  rw [hjob] at hrecord ⊢
  exact hrecord.readEntries_eq _

theorem fetchJobs (h : Mirrors T st codec now s db) {ids : List ℕ}
    (hids : ∀ id ∈ ids, (s.getJob id).isSome = true) (utc : Dt) :
    st.fetchJobs T codec.format db.toServer utc ids = some (s.fetchJobs ids) := by
  have hget : ∀ id ∈ ids, st.getJob T codec.format db.toServer utc id = s.getJob id :=
    fun id hid => h.getJob (hids id hid) utc
  have hsome : ∀ id ∈ ids, (st.getJob T codec.format db.toServer utc id).isSome = true := by
    intro id hid
    rw [hget id hid]
    exact hids id hid
  rw [RedisStore.fetchJobs_eq, RedisStore.mapM_eq_filterMap hsome, List.filterMap_congr hget,
    InMemoryStore.fetchJobs_eq]

theorem hget_record (h : Mirrors T st codec now s db) {id : ℕ} {job : Job D R P}
    (hjob : s.getJob id = some job) (k : JobKey) :
    ∃ text, db.hget (st.recordKey T id) k.written = some text ∧
      codec.read k text = some (job.get k) := by
  have hrecord := h.hashes_record id
  rw [hjob] at hrecord
  exact JobCodec.exists_hget hrecord k

theorem hget_missing (h : Mirrors T st codec now s db) {id : ℕ} (hjob : s.getJob id = none)
    (field : String) : db.hget (st.recordKey T id) field = none := by
  have hrecord := h.hashes_record id
  rw [hjob] at hrecord
  have hnil : db.hashes (st.recordKey T id) = [] := hrecord
  simp [Server.hget, hnil, Server.lookupField]

theorem hget_unknown (h : Mirrors T st codec now s db) (id : ℕ) {field : String}
    (hfield : ∀ k : JobKey, k.written ≠ field) : db.hget (st.recordKey T id) field = none := by
  cases hjob : s.getJob id with
  | none => exact h.hget_missing hjob field
  | some job =>
    have hrecord := h.hashes_record id
    rw [hjob] at hrecord
    have hfind : (db.hashes (st.recordKey T id)).find? (fun e => e.1 = field) = none := by
      rw [List.find?_eq_none]
      intro e he hname
      obtain ⟨k, hk, -⟩ := hrecord.sound e he
      exact hfield k (hk.symm.trans (of_decide_eq_true hname))
    simp [Server.hget, Server.lookupField, hfind]

theorem getState (h : Mirrors T st codec now s db) (id : ℕ) :
    RedisStore.Calls.getState T st db id = s.getState id := by
  unfold RedisStore.Calls.getState InMemoryStore.getState
  cases hjob : s.getJob id with
  | none =>
    rw [h.hget_missing hjob]
    rfl
  | some job =>
    obtain ⟨text, hget, hread⟩ := h.hget_record hjob .state
    have hstate : db.hget (st.recordKey T id) "state" = some text := hget
    rw [hstate]
    exact hread

theorem getToken (h : Mirrors T st codec now s db)
    (hfresh : ∀ k, (db.slot k).expired now = false) {id : ℕ}
    (hid : (s.locks.content.visible now (.lock id)).isSome = true ∨
      ∀ job ∈ s.getJob id, job.token = none) :
    RedisStore.Calls.getToken T st db codec id = (s.getToken id now).1 := by
  have hrel := h.text_rel (.lock id) rfl hfresh
  unfold RedisStore.Calls.getToken InMemoryStore.getToken
  dsimp only
  rw [TimedMap.get_fst]
  generalize s.locks.content.visible now (.lock id) = lock at hrel hid ⊢
  generalize db.texts (st.key T (.lock id)) = text at hrel ⊢
  cases hrel with
  | some hlock =>
    obtain ⟨token, rfl, rfl⟩ := hlock
    have hnull := (codec.token_neverNull token).2
    simp [hnull, codec.token.decode_compact token hnull]
  | none =>
    have htoken : ∀ job ∈ s.getJob id, job.token = none := hid.resolve_left (by simp)
    simp only [Option.bind_none, Option.none_or]
    cases hjob : s.getJob id with
    | none =>
      rw [h.hget_missing hjob]
      rfl
    | some job =>
      obtain ⟨text, hget, hread⟩ := h.hget_record hjob .token
      have htext : db.hget (st.recordKey T id) "token" = some text := hget
      rw [htext, Option.bind_some]
      have hnone : (codec.token.decodeOption text).getD none = none :=
        (Option.some.inj hread).trans (htoken job hjob)
      unfold Codec.decodeOption at hnone
      split_ifs with hnull
      · rfl
      · rw [if_neg hnull] at hnone
        cases hdecode : codec.token.decode text with
        | none => rfl
        | some token => simp [hdecode] at hnone

theorem keyExists_record (h : Mirrors T st codec now s db) (id : ℕ) :
    db.keyExists (st.recordKey T id) = s.jobExists id := by
  obtain ⟨hash, hslot, hrecord⟩ := h.slot_job id
  rw [Keyspace.keyExists_eq, hslot, InMemoryStore.jobExists]
  cases hjob : s.getJob id with
  | none =>
    rw [hjob] at hrecord
    have hnil : hash = [] := hrecord
    simp [hnil]
  | some job =>
    rw [hjob] at hrecord
    obtain ⟨e, he, -⟩ := hrecord.complete .id
    have hne : hash.isEmpty = false := by
      cases hash with
      | nil => exact absurd he List.not_mem_nil
      | cons _ _ => rfl
    simp [hne]

theorem getCounter_job (h : Mirrors T st codec now s db) (id : ℕ) (counter : JobCounter) :
    ((db.hget (st.recordKey T id) counter.name).bind (parseUnsigned 64)).getD 0 =
      ((s.getJob id).map counter.value).getD 0 := by
  cases hjob : s.getJob id with
  | none =>
    rw [h.hget_missing hjob]
    rfl
  | some job =>
    obtain ⟨text, hget, hread⟩ := h.hget_record hjob counter.key
    have hparse : parseNumber 64 text = some (counter.value job) := by
      cases counter <;> exact hread
    rw [counter.name_eq_written, hget, Option.bind_some, parseUnsigned_of_parseNumber hparse]
    rfl

theorem getCounter_meta (h : Mirrors T st codec now s db) :
    ((db.hget (st.metaKey T) "processing").bind (parseUnsigned 64)).getD 0 = s.processing := by
  have hmeta := h.hashes_meta
  have hfield := hmeta.processing
  change (db.hget (st.metaKey T) "processing").elim _ _ at hfield
  cases hget : db.hget (st.metaKey T) "processing" with
  | none =>
    rw [hget, Option.elim_none] at hfield
    exact hfield.symm
  | some text =>
    rw [hget, Option.elim_some] at hfield
    rw [Option.bind_some, hfield, parseUnsigned_toDigits (hmeta.small.trans (by norm_num))]
    rfl

theorem getCounter (h : Mirrors T st codec now s db) {key : CollectionSuffix}
    {hashKey : Option CounterName} (hadmits : AdmitsCounter s key hashKey) :
    RedisStore.Calls.getCounter T st db key hashKey =
      (s.getCounter key (hashKey.map CounterName.field)).getD 0 := by
  unfold AdmitsCounter at hadmits
  split at hadmits
  · rename_i id
    have hmemory := s.getCounter_jobCounter id .attemptsMade
    exact (h.getCounter_job id .attemptsMade).trans (congrArg (·.getD 0) hmemory).symm
  · rename_i id
    have hmemory := s.getCounter_jobCounter id .stalledCounter
    exact (h.getCounter_job id .stalledCounter).trans (congrArg (·.getD 0) hmemory).symm
  · rename_i id
    have hnone : db.hget (st.recordKey T id) "attempts_made" = none :=
      h.hget_unknown id fun k => by cases k <;> decide
    have hzero : (s.getCounter (.job id) (some .attemptsMade)).getD 0 = 0 := by
      cases hjob : s.getJob id with
      | none => simp [InMemoryStore.getCounter, hjob]
      | some job => simpa [InMemoryStore.getCounter, hjob] using hadmits job hjob
    exact (congrArg (fun text => (text.bind (parseUnsigned 64)).getD 0) hnone).trans hzero.symm
  · exact h.getCounter_meta
  · exact hadmits.elim

/-! ### Membership and listings -/

theorem zscore (h : Mirrors T st codec now s db) (col : Scored) (item : ℕ) :
    (db.zscore (st.key T col.suffix) item).elim (.ok false)
        (fun score => (RedisStore.readU64 score).map fun _ => true) =
      (.ok ((s.scores col).entries.any fun e => e.2 = item) : StoreResult Bool) := by
  have hperm := (h.zsets_holds col).perm
  unfold Server.zscore
  cases hfind : (db.zsets (st.key T col.suffix)).find? fun e => e.1 = item with
  | none =>
    have hnone : ((s.scores col).entries.any fun e => e.2 = item) = false := by
      rw [List.any_eq_false]
      intro e he hitem
      rw [List.find?_eq_none] at hfind
      have hmem : (e.2, (e.1 : ℤ)) ∈ db.zsets (st.key T col.suffix) :=
        hperm.mem_iff.mpr (List.mem_map_of_mem (f := fun e : ℕ × ℕ => (e.2, (e.1 : ℤ))) he)
      exact hfind _ hmem hitem
    rw [hnone]
    rfl
  | some found =>
    have hname := List.find?_some hfind
    obtain ⟨e, he, rfl⟩ := List.mem_map.mp (hperm.mem_iff.mp (List.mem_of_find?_eq_some hfind))
    have hany : ((s.scores col).entries.any fun e => e.2 = item) = true :=
      List.any_eq_true.mpr ⟨e, he, hname⟩
    have hscore : RedisStore.readU64 (e.1 : ℤ) = .ok e.1 := by simp [RedisStore.readU64]
    rw [hany, Option.map_some, Option.elim_some, hscore]
    rfl

theorem existsIn (h : Mirrors T st codec now s db)
    (hfresh : ∀ k, (db.slot k).expired now = false) {col : CollectionSuffix} {item : ℕ}
    (hadmits : AdmitsMember s item col) :
    RedisStore.Calls.existsIn T st db col item = .ok (s.existsIn col item now).1 := by
  have hlisted : ∀ col : Listed, decide (item ∈ db.lists (st.key T col.suffix)) =
      (s.deque col).containsValue item := by
    intro col
    rw [Bool.eq_iff_iff, decide_eq_true_iff, ConcurrentDeque.containsValue_iff, h.lists_eq col]
  cases col with
  | active => exact congrArg Except.ok (hlisted .active)
  | wait => exact congrArg Except.ok (hlisted .wait)
  | completed => exact h.zscore .completed item
  | failed => exact h.zscore .failed item
  | delayed => exact h.zscore .delayed item
  | prioritized => exact h.zscore .prioritized item
  | stalled =>
    have hmem : decide (item ∈ db.sets (st.key T .stalled)) = s.stalled.containsKey item := by
      rw [Bool.eq_iff_iff, decide_eq_true_iff, h.sets_perm.mem_iff, OrderedMap.containsKey_eq,
        OrderedMap.mem_keys, Option.isSome_iff_exists]
    exact congrArg Except.ok hmem
  | job id => exact congrArg Except.ok (h.keyExists_record id)
  | lock id =>
    have hlive := h.keyExists_lock (.lock id) rfl hfresh
    exact congrArg Except.ok (hlive.trans (TimedMap.containsKey_fst _ _ _).symm)
  | stalledCheck =>
    have hlive := h.keyExists_lock .stalledCheck rfl hfresh
    exact congrArg Except.ok (hlive.trans (TimedMap.containsKey_fst _ _ _).symm)
  | paused =>
    have hslot : db.slot (st.key T .paused) = { list := s.paused.values } :=
      h.slot_listed .paused
    have hexists : db.keyExists (st.key T .paused) = s.paused.containsValue item := by
      rw [Keyspace.keyExists_eq, hslot, Bool.eq_iff_iff, ConcurrentDeque.containsValue_iff]
      rcases hadmits with hnil | hmem
      · simp [hnil]
      · have hne : s.paused.values ≠ [] := List.ne_nil_of_mem hmem
        simp [hmem, hne]
    exact congrArg Except.ok hexists
  | _ => exact hadmits.elim

theorem zsorted_eq (h : Mirrors T st codec now s db) (col : Scored) :
    db.zsorted (st.key T col.suffix) =
      (s.scores col).entries.map fun e => (e.2, (e.1 : ℤ)) := by
  refine db.toServer.zsorted_eq ?_ (h.zsets_holds col).perm
  rw [List.pairwise_map]
  exact (s.scores col).sorted.imp fun hlt => Int.ofNat_lt.mpr hlt

theorem slice_all {l : List ℕ} (h : l.length < 2 ^ 63) :
    slice l (castSigned 0) (castSigned l.length) = l := by
  have hlength : castSigned l.length = (l.length : ℤ) := if_pos h
  have hzero : castSigned 0 = ((0 : ℕ) : ℤ) := if_pos (by norm_num)
  rw [hlength, hzero, slice_natCast, List.drop_zero, List.take_of_length_le (by omega)]

theorem idRange_all (ids : List ℕ) : InMemoryStore.idRange ids 0 none = ids := by
  unfold InMemoryStore.idRange
  cases ids with
  | nil => rfl
  | cons id ids => simp

theorem getJobIdsInState (h : Mirrors T st codec now s db) {state : JobState}
    (hlength : (s.idsIn state).length < 2 ^ 63)
    (hstalled : state = .stalled → s.stalled.keys = [] ∧ s.paused.values = []) :
    RedisStore.Calls.getJobIdsInState T st db state none none =
      .ok (s.getJobIdsInState state none none) := by
  have hlist : ∀ col : Listed, (s.deque col).values.length < 2 ^ 63 →
      (if 0 < db.llen (st.key T col.suffix) then Except.ok (db.lrange (st.key T col.suffix)
        (castSigned 0) (castSigned (db.llen (st.key T col.suffix)))) else .ok []) =
        (.ok (s.deque col).values : Except ListingError (List ℕ)) := by
    intro col hlen
    rw [Server.llen, Server.lrange, h.lists_eq col, slice_all hlen]
    split_ifs with hpos
    · rfl
    · rw [List.eq_nil_of_length_eq_zero (Nat.eq_zero_of_not_pos hpos)]
  have hscored : ∀ col : Scored, (s.scores col).values.length < 2 ^ 63 →
      (if 0 < db.zcard (st.key T col.suffix) then Except.ok (db.zrange (st.key T col.suffix)
        (castSigned 0) (castSigned (db.zcard (st.key T col.suffix)))) else .ok []) =
        (.ok (s.scores col).values : Except ListingError (List ℕ)) := by
    intro col hlen
    have hcard : db.zcard (st.key T col.suffix) = (s.scores col).values.length :=
      (h.length_zsets col).trans (List.length_map _).symm
    have hmembers : (db.zsorted (st.key T col.suffix)).map Prod.fst = (s.scores col).values := by
      rw [h.zsorted_eq col, List.map_map]
      rfl
    rw [Server.zrange, hcard, slice_map, hmembers, slice_all hlen]
    split_ifs with hpos
    · rfl
    · rw [List.eq_nil_of_length_eq_zero (Nat.eq_zero_of_not_pos hpos)]
  rw [InMemoryStore.getJobIdsInState_eq_idRange, Option.getD_none, idRange_all]
  cases state with
  | wait => exact congrArg RedisStore.readListing (hlist .wait hlength)
  | active => exact congrArg RedisStore.readListing (hlist .active hlength)
  | paused => exact congrArg RedisStore.readListing (hlist .paused hlength)
  | completed => exact congrArg RedisStore.readListing (hscored .completed hlength)
  | failed => exact congrArg RedisStore.readListing (hscored .failed hlength)
  | delayed => exact congrArg RedisStore.readListing (hscored .delayed hlength)
  | prioritized => exact congrArg RedisStore.readListing (hscored .prioritized hlength)
  | stalled =>
    obtain ⟨hnone, hpaused⟩ := hstalled rfl
    have hslot : db.slot (st.key T .paused) = { list := s.paused.values } :=
      h.slot_listed .paused
    rw [hpaused] at hslot
    have hmembers : db.smembers (st.key T (.ofJobState .stalled)) = .ok [] :=
      Keyspace.smembers_of_slot_empty hslot
    have hids : s.idsIn .stalled = [] := hnone
    unfold RedisStore.Calls.getJobIdsInState
    rewrite [hids, if_pos rfl, hmembers]
    rfl
  | _ => rfl

end Mirrors

end Kiomq
