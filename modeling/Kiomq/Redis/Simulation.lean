import Kiomq.Redis.MirroredReads

/-!
# The Redis store simulates the in-memory store

The admitted calls that write leave the two stores mirrors of each other. With the calls that
read, the Redis store simulates the in-memory store.
-/

namespace Kiomq

open Foundations Redis

variable {D R P : Type}

namespace Mirrors

variable {T : CaseTable} {st : RedisStore} {codec : JobCodec D R P} {now : ℕ}
  {s : InMemoryStore D R P} {db : Keyspace (QueueStreamEvent R P)}

/-! ### Additions and removals -/

theorem addListed (h : Mirrors T st codec now s db) (col : Listed) (item : ℕ) (append : Bool) :
    Mirrors T st codec now
      (s.setDeque col
        (if append then (s.deque col).pushFront item else (s.deque col).pushBack item))
      (if append then db.onServer fun r => r.exec (.lpush (st.key T col.suffix) item)
      else db.onServer fun r => r.rpush (st.key T col.suffix) item) := by
  cases append with
  | true =>
    refine h.setDeque col (l := item :: db.lists (st.key T col.suffix)) ?_
    rw [h.lists_eq col]
    exact (ConcurrentDeque.values_pushFront _ _).symm
  | false =>
    refine h.setDeque col (l := db.lists (st.key T col.suffix) ++ [item]) ?_
    rw [h.lists_eq col]
    exact (ConcurrentDeque.values_pushBack _ _).symm

theorem holdsScored_insert {z : List (ℕ × ℤ)} {m : OrderedMap ℕ ℕ} (hz : HoldsScored z m)
    {item : ℕ} {score : ℤ} (hadmits : AdmitsScore m item (some score)) :
    HoldsScored (z.filter (fun e => e.1 ≠ item) ++ [(item, score)])
      (m.insert (castUnsigned score) item) := by
  obtain ⟨hpos, hsmall, hkey, hitem⟩ := hadmits
  have hcast : castUnsigned score = score.toNat :=
    castUnsigned_of_nonneg hpos (hsmall.trans (by norm_num))
  have hnone : m.get? score.toNat = none := by
    rwa [OrderedMap.containsKey_eq, Option.isSome_eq_false_iff, Option.isNone_iff_eq_none] at hkey
  have hperm := m.insert_perm item hnone
  have hkeep : z.filter (fun e => e.1 ≠ item) = z := by
    rw [List.filter_eq_self]
    intro e he
    obtain ⟨f, hf, rfl⟩ := List.mem_map.mp (hz.perm.mem_iff.mp he)
    refine decide_eq_true fun heq => hitem ?_
    exact heq ▸ List.mem_map_of_mem hf
  rw [hcast, hkeep]
  refine ⟨?_, ?_⟩
  · refine (List.perm_append_comm.trans (hz.perm.cons (item, score))).trans ?_
    refine List.Perm.trans (List.Perm.of_eq ?_)
      (hperm.map fun e : ℕ × ℕ => (e.2, (e.1 : ℤ))).symm
    rw [List.map_cons, Int.toNat_of_nonneg hpos]
  · have hvalues : (m.insert score.toNat item).values.Perm (item :: m.values) := hperm.map Prod.snd
    exact hvalues.nodup_iff.mpr (List.nodup_cons.mpr ⟨hitem, hz.once⟩)

theorem addScored (h : Mirrors T st codec now s db) (col : Scored) {item : ℕ}
    {score : Option ℤ} (hadmits : AdmitsScore (s.scores col) item score) :
    Mirrors T st codec now
      (s.setScores col (score.elim (s.scores col) fun x =>
        (s.scores col).insert (castUnsigned x) item))
      (db.onServer fun r => r.exec (.zadd (st.key T col.suffix) item (score.getD 0))) := by
  cases score with
  | none => exact hadmits.elim
  | some x => exact h.setScores col (holdsScored_insert (h.zsets_holds col) hadmits)

theorem addStalled (h : Mirrors T st codec now s db) (item : ℕ) :
    Mirrors T st codec now { s with stalled := s.stalled.insert item () }
      (db.sadd (st.key T .stalled) item) := by
  have hnodup : (db.sets (st.key T .stalled)).Nodup :=
    h.sets_perm.nodup_iff.mpr s.stalled.nodup_keys
  have hkeys : ∀ id, id ∈ (s.stalled.insert item ()).keys ↔
      id = item ∨ id ∈ db.sets (st.key T .stalled) := by
    intro id
    rw [h.sets_perm.mem_iff, OrderedMap.mem_keys, OrderedMap.mem_keys, OrderedMap.get?_insert]
    by_cases hid : id = item <;> simp [hid]
  unfold Keyspace.sadd
  split_ifs with hmem
  · have hset := h.setStalled (m := s.stalled.insert item ())
      ((List.perm_ext_iff_of_nodup hnodup (OrderedMap.nodup_keys _)).mpr fun id => by
        rw [hkeys id]
        exact ⟨Or.inr, fun hor => hor.elim (fun heq => heq ▸ hmem) fun hin => hin⟩)
    rwa [Function.update_eq_self] at hset
  · refine h.setStalled ((List.perm_ext_iff_of_nodup
      (List.nodup_append.mpr ⟨hnodup, List.nodup_singleton _, ?_⟩)
        (OrderedMap.nodup_keys _)).mpr fun id => ?_)
    · rintro id hid _ hother rfl
      exact hmem (List.mem_singleton.mp hother ▸ hid)
    · rw [hkeys id, List.mem_append, List.mem_singleton, or_comm]

theorem addItem (h : Mirrors T st codec now s db) {col : CollectionSuffix} {item : ℕ}
    {score : Option ℤ} (append : Bool) (hadmits : AdmitsAddition s item score col) :
    Mirrors T st codec now (s.addItem col item score append)
      (RedisStore.Calls.addItem T st db col item score append) := by
  cases col with
  | active => exact h.addListed .active item append
  | wait => exact h.addListed .wait item append
  | paused => exact h.addListed .paused item append
  | completed => exact h.addScored .completed hadmits
  | failed => exact h.addScored .failed hadmits
  | delayed => exact h.addScored .delayed hadmits
  | prioritized => exact h.addScored .prioritized hadmits
  | stalled => exact h.addStalled item
  | _ => exact h

theorem erase_eq_filter {l : List ℕ} {item : ℕ} (h : l.count item ≤ 1) :
    l.erase item = l.filter fun id => id ≠ item := by
  induction l with
  | nil => rfl
  | cons id l ih =>
    by_cases hid : id = item
    · subst hid
      have hnone : id ∉ l := by
        rw [List.count_cons_self] at h
        exact List.count_eq_zero.mp (by omega)
      rw [List.erase_cons_head, List.filter_cons_of_neg (by simp), eq_comm, List.filter_eq_self]
      exact fun x hx => decide_eq_true fun heq => hnone (heq ▸ hx)
    · rw [List.count_cons_of_ne hid] at h
      rw [List.erase_cons_tail (by simpa using hid), List.filter_cons_of_pos (by simpa using hid),
        ih h]

theorem removeListed (h : Mirrors T st codec now s db) (col : Listed) {item : ℕ}
    (hcount : (s.deque col).values.count item ≤ 1) :
    Mirrors T st codec now (s.setDeque col ((s.deque col).filter fun e => e.2 ≠ item))
      (db.onServer fun r => r.lrem (st.key T col.suffix) item) := by
  refine h.setDeque col (l := (db.lists (st.key T col.suffix)).erase item) ?_
  rw [h.lists_eq col, erase_eq_filter hcount]
  simp only [ConcurrentDeque.values, ConcurrentDeque.filter, OrderedMap.values,
    OrderedMap.entries_filter, List.filter_map, Function.comp_def]

theorem holdsScored_filter {z : List (ℕ × ℤ)} {m : OrderedMap ℕ ℕ} (hz : HoldsScored z m)
    {p : ℕ × ℤ → Bool} {q : ℕ × ℕ → Bool} (h : ∀ e ∈ m.entries, p (e.2, (e.1 : ℤ)) = q e) :
    HoldsScored (z.filter p) (m.filter q) := by
  refine ⟨?_, hz.once.sublist (List.filter_sublist.map Prod.snd)⟩
  refine (hz.perm.filter p).trans (List.Perm.of_eq ?_)
  rw [List.filter_map, OrderedMap.entries_filter]
  exact congrArg _ (List.filter_congr h)

theorem removeScored (h : Mirrors T st codec now s db) (col : Scored) {item : ℕ}
    (hkey : (s.scores col).containsKey item = false) :
    Mirrors T st codec now (s.setScores col (InMemoryStore.removeScored (s.scores col) item))
      (db.onServer fun r => r.zrem (st.key T col.suffix) item) := by
  refine h.setScores col (z := (db.zsets (st.key T col.suffix)).filter fun e => e.1 ≠ item) ?_
  rw [InMemoryStore.removeScored, if_neg (by simp [hkey])]
  exact holdsScored_filter (h.zsets_holds col) fun _ _ => rfl

theorem removeStalled (h : Mirrors T st codec now s db) (item : ℕ) :
    Mirrors T st codec now { s with stalled := s.stalled.remove item }
      (db.srem (st.key T .stalled) item) := by
  refine h.setStalled ((h.sets_perm.filter _).trans (List.Perm.of_eq ?_))
  simp only [OrderedMap.keys, OrderedMap.remove, OrderedMap.entries_filter, List.filter_map,
    Function.comp_def]

theorem removeItem (h : Mirrors T st codec now s db) {col : CollectionSuffix} {item : ℕ}
    (hadmits : AdmitsRemoval s item col) :
    Mirrors T st codec now (s.removeItem col item)
      (RedisStore.Calls.removeItem T st db col item) := by
  cases col with
  | active => exact h.removeListed .active hadmits
  | wait => exact h.removeListed .wait hadmits
  | paused => exact h.removeListed .paused hadmits
  | completed => exact h.removeScored .completed hadmits
  | failed => exact h.removeScored .failed hadmits
  | delayed => exact h.removeScored .delayed hadmits
  | prioritized => exact h.removeScored .prioritized hadmits
  | stalled => exact h.removeStalled item
  | job _ | lock _ => exact hadmits.elim
  | _ => exact h

/-! ### Deletion of keys -/

theorem remove_listed (h : Mirrors T st codec now s db) (col : Listed) :
    Mirrors T st codec now (s.setDeque col (s.deque col).clear) (db.del (st.key T col.suffix)) := by
  refine h.delete col.suffix (fun suffix hne slot hslot => ?_) ?_ ?_ ?_
  · cases col <;> cases suffix <;> first | exact hslot | exact absurd rfl hne
  all_goals cases col <;> rfl

theorem remove_scored (h : Mirrors T st codec now s db) (col : Scored) :
    Mirrors T st codec now (s.setScores col .empty) (db.del (st.key T col.suffix)) := by
  have hempty : HoldsScored [] .empty := ⟨List.Perm.refl _, List.nodup_nil⟩
  refine h.delete col.suffix (fun suffix hne slot hslot => ?_) ?_ ?_ ?_
  · cases col <;> cases suffix <;> first | exact hslot | exact absurd rfl hne
  · cases col <;> rfl
  · cases col <;> rfl
  · cases col <;> exact ⟨[], rfl, hempty⟩

theorem remove_lock (h : Mirrors T st codec now s db) (col : CollectionSuffix)
    (hcol : col.isLock = true) :
    Mirrors T st codec now { s with locks := s.locks.remove col } (db.del (st.key T col)) := by
  refine h.setLocks hcol h.expiring (fun col' hne t _ => ?_) (fun k => Keyspace.slot_del _ _ _) rfl
    fun t _ => ?_
  · rw [TimedMap.visible_remove, if_neg hne]
  · rw [TimedMap.visible_remove, if_pos rfl]
    exact Option.Rel.none

theorem remove_record (h : Mirrors T st codec now s db) (id : ℕ) :
    Mirrors T st codec now { s with jobs := s.jobs.remove (.job id) }
      (db.del (st.recordKey T id)) := by
  have hget : ∀ j, InMemoryStore.getJob { s with jobs := s.jobs.remove (.job id) } j =
      if j = id then none else s.getJob j := by
    intro j
    simp only [InMemoryStore.getJob, RecordMap.get_remove, CollectionSuffix.job.injEq]
  refine h.delete (.job id) (fun suffix hne slot hslot => ?_) rfl rfl ⟨[], rfl, ?_⟩
  · cases suffix with
    | job j =>
      obtain ⟨hash, hslot', hj⟩ := hslot
      refine ⟨hash, hslot', ?_⟩
      rw [hget, if_neg fun heq => hne (congrArg _ heq)]
      exact hj
    | _ => exact hslot
  · rw [hget, if_pos rfl]
    rfl

theorem remove (h : Mirrors T st codec now s db) {key : CollectionSuffix}
    (hadmits : AdmitsDeletion key) :
    Mirrors T st codec now (s.remove key) (db.del (st.key T key)) := by
  cases key with
  | active => exact h.remove_listed .active
  | wait => exact h.remove_listed .wait
  | paused => exact h.remove_listed .paused
  | failed => exact h.remove_scored .failed
  | delayed => exact h.remove_scored .delayed
  | prioritized => exact h.remove_scored .prioritized
  | stalled =>
    refine h.delete .stalled (fun suffix hne slot hslot => ?_) rfl rfl ⟨[], rfl, List.Perm.refl _⟩
    cases suffix <;> first | exact hslot | exact absurd rfl hne
  | job id => exact h.remove_record id
  | lock id => exact h.remove_lock (.lock id) rfl
  | stalledCheck => exact h.remove_lock .stalledCheck rfl
  | priorityCounter => exact h.delete .priorityCounter (fun _ _ _ hslot => hslot) rfl rfl trivial
  | _ => exact hadmits.elim

/-! ### Pops -/

theorem popScored (h : Mirrors T st codec now s db) (col : Scored) (min : Bool) :
    (RedisStore.Calls.popSet T st db col.suffix min).1 =
        .ok (InMemoryStore.popScored (s.scores col) min).1 ∧
      Mirrors T st codec now
        (s.setScores col (InMemoryStore.popScored (s.scores col) min).2)
        (RedisStore.Calls.popSet T st db col.suffix min).2 := by
  have hhead : (if min then (db.zsorted (st.key T col.suffix)).head?
      else (db.zsorted (st.key T col.suffix)).getLast?) =
      (if min then (s.scores col).front? else (s.scores col).back?).map
        fun e => (e.2, (e.1 : ℤ)) := by
    rw [h.zsorted_eq col]
    cases min
    · exact List.getLast?_map
    · exact List.head?_map
  have hend : ∀ e, (if min then (s.scores col).front? else (s.scores col).back?) = some e →
      e ∈ (s.scores col).entries := by
    intro e he
    cases min
    · exact List.mem_of_getLast? he
    · exact List.mem_of_head? he
  have hself : s.setScores col (s.scores col) = s := by cases col <;> rfl
  unfold RedisStore.Calls.popSet InMemoryStore.popScored Server.zpop
  rw [hhead]
  cases hentry : (if min then (s.scores col).front? else (s.scores col).back?) with
  | none =>
    refine ⟨rfl, ?_⟩
    rw [hself]
    exact h
  | some e =>
    have hmem := hend e hentry
    refine ⟨?_, ?_⟩
    · simp [RedisStore.readU64, Except.map]
    · refine h.setScores col (holdsScored_filter (h.zsets_holds col) fun f hf => ?_)
      -- the member determines the entry
      have hvalues := List.inj_on_of_nodup_map (h.zsets_holds col).once
      refine decide_eq_decide.mpr (not_congr ⟨fun heq => ?_, fun heq => ?_⟩)
      · exact congrArg Prod.fst (hvalues hf hmem heq)
      · exact congrArg Prod.snd ((s.scores col).key_unique hf hmem heq)

theorem popSet (h : Mirrors T st codec now s db) {col : CollectionSuffix} {min : Bool}
    (hcol : RedisStore.isScored col = true) :
    (RedisStore.Calls.popSet T st db col min).1 = .ok (s.popSet col min).1 ∧
      Mirrors T st codec now (s.popSet col min).2 (RedisStore.Calls.popSet T st db col min).2 := by
  cases col with
  | completed => exact h.popScored .completed min
  | failed => exact h.popScored .failed min
  | delayed => exact h.popScored .delayed min
  | prioritized => exact h.popScored .prioritized min
  | _ => cases hcol

theorem popBackPushFront (h : Mirrors T st codec now s db) :
    (RedisStore.Calls.popBackPushFront T st db .wait .active).1 =
        (s.popBackPushFront .wait .active).1 ∧
      Mirrors T st codec now (s.popBackPushFront .wait .active).2
        (RedisStore.Calls.popBackPushFront T st db .wait .active).2 := by
  have hwait : db.lists (st.key T .wait) = s.waiting.values := h.lists_eq .wait
  have hactive : db.lists (st.key T .active) = s.active.values := h.lists_eq .active
  have hne : st.key T .active ≠ st.key T .wait := fun heq => by
    cases st.key_injective T heq
  have hfst := s.waiting.popBack_fst
  have hvalues := s.waiting.values_popBack
  unfold RedisStore.Calls.popBackPushFront Server.rpoplpush InMemoryStore.popBackPushFront
  rw [hwait, ← hfst]
  cases hpop : s.waiting.popBack with
  | mk popped waiting =>
    rw [hpop] at hvalues
    cases popped with
    | none =>
      refine ⟨rfl, ?_⟩
      have hnil : s.waiting.values = [] := by
        rw [hpop] at hfst
        exact List.getLast?_eq_none_iff.mp hfst.symm
      have hsame := h.setDeque .wait (d := waiting) (l := db.lists (st.key T .wait)) (by
        rw [hwait, hnil]
        exact (hvalues.trans (by rw [hnil]; rfl)).symm)
      have hupdate : (db.onServer fun r => { r with
          lists := Function.update r.lists (st.key T .wait)
            (db.lists (st.key T .wait)) }) = db := by
        simp only [Keyspace.onServer, Function.update_eq_self]
      exact hupdate ▸ hsame
    | some value =>
      refine ⟨rfl, ?_⟩
      have hfirst := h.setDeque .wait (d := waiting) hvalues.symm
      have hsecond := hfirst.setDeque .active (d := s.active.pushFront value)
        (l := value :: s.active.values) (ConcurrentDeque.values_pushFront _ _).symm
      refine cast ?_ hsecond
      simp only [InMemoryStore.setDeque, Keyspace.onServer, Listed.suffix,
        Function.update_of_ne hne, hactive]

/-! ### Delayed jobs -/

theorem getDelayedAt (h : Mirrors T st codec now s db) {start stop : ℤ} (hstart : 1 ≤ start)
    (hle : start ≤ stop) (hstop : stop < 2 ^ 63)
    (hscores : ∀ e ∈ s.delayed.entries,
      e.1 < 2 ^ 63 ∧ (e.1 : ℤ) ≠ start - 1 ∧ (e.1 : ℤ) ≠ stop) :
    (st.getDelayedAt T db.toServer start stop).1 = (s.getDelayedAt start stop).1 ∧
      Mirrors T st codec now (s.getDelayedAt start stop).2
        (db.onServer fun _ => (st.getDelayedAt T db.toServer start stop).2) := by
  have hz : HoldsScored (db.zsets (st.delayedSetKey T)) s.delayed := h.zsets_holds .delayed
  let d : DelayedSet :=
    { entries := s.delayed.entries.map fun e => (e.2, (e.1 : ℤ))
      sorted := by
        rw [List.pairwise_map]
        exact s.delayed.sorted.imp fun hlt => Int.ofNat_lt.mpr hlt
      bounded := by
        intro e he
        obtain ⟨f, hf, rfl⟩ := List.mem_map.mp he
        have hbound := (hscores f hf).1
        omega }
  have hkeyed : ∀ e ∈ s.delayed.entries, DelayedSet.keyed (e.2, (e.1 : ℤ)) = e := by
    intro e he
    have hbound := (hscores e he).1
    rw [DelayedSet.keyed, castUnsigned_of_nonneg (by omega) (by omega), Int.toNat_natCast]
  have hmemory : s.HoldsDelayed d := by
    refine List.Perm.of_eq ?_
    rw [List.map_map]
    exact (List.map_id _).symm.trans (List.map_congr_left fun e he => (hkeyed e he).symm)
  have hcontract := InMemoryStore.meetsContract_of_scores hmemory hstart hle hstop fun e he => by
    obtain ⟨f, hf, rfl⟩ := List.mem_map.mp he
    have hbound := hscores f hf
    exact ⟨by omega, hbound.2⟩
  have hserver := st.meetsContract T (r := db.toServer) (d := d) hz.perm hle
  have hrest : HoldsScored ((st.getDelayedAt T db.toServer start stop).2.zsets
      (st.delayedSetKey T)) (s.getDelayedAt start stop).2.delayed := by
    refine ⟨hserver.2.trans ?_, ?_⟩
    · have hentries := hcontract.2.map fun e : ℕ × ℕ => (e.2, (e.1 : ℤ))
      refine (hentries.trans (List.Perm.of_eq ?_)).symm
      rw [List.map_map]
      refine (List.map_congr_left fun e he => ?_).trans (List.map_id _)
      obtain ⟨f, hf, rfl⟩ := List.mem_map.mp (List.mem_of_mem_filter he)
      rw [Function.comp_apply, hkeyed f hf]
      rfl
    · exact hz.once.sublist ((List.filter_sublist.trans List.filter_sublist).map Prod.snd)
  refine ⟨hserver.1.trans hcontract.1.symm, ?_⟩
  have hset : Mirrors T st codec now (s.getDelayedAt start stop).2 (db.onServer fun r =>
      { r with zsets := Function.update r.zsets (st.delayedSetKey T) _ }) :=
    h.setScores .delayed hrest
  simpa only [Keyspace.onServer, RedisStore.getDelayedAt, Server.zremrangebyscore,
    Function.update_self, Function.update_idem] using hset

/-! ### Locks -/

theorem setLock (h : Mirrors T st codec now s db) {clock : Clock} (hclock : clock.instant = now)
    {col : CollectionSuffix} {token : Option JobToken} {lockDuration : ℕ}
    (hvalid : Keyspace.ValidTtl lockDuration clock.instant) (hadmits : AdmitsLock col token) :
    (RedisStore.Calls.setLock T st db codec col token lockDuration clock).1 = .ok () ∧
      Mirrors T st codec now (s.setLock col token lockDuration now)
        (RedisStore.Calls.setLock T st db codec col token lockDuration clock).2 := by
  have hset : ∀ (col : CollectionSuffix) (lock : Lock) (text : Text), col.isLock = true →
      HoldsLock codec col lock text →
      ∃ db', db.psetex (st.key T col) text lockDuration clock.instant = some db' ∧
        Mirrors T st codec now
          { s with locks := s.locks.insertExpirable col lock lockDuration now } db' := by
    intro col lock text hcol hlock
    obtain ⟨db', hdb'⟩ : ∃ db',
        db.psetex (st.key T col) text lockDuration clock.instant = some db' :=
      ⟨_, if_pos hvalid⟩
    refine ⟨db', hdb', h.setLocks hcol ?_ (fun col' hne t _ => ?_)
      (fun k => Keyspace.slot_psetex hdb' k) (Keyspace.published_psetex hdb') fun t _ => ?_⟩
    · exact (TimedMap.disableExpiration_insertExpirable _ _ _ _ _).trans h.expiring
    · rw [TimedMap.visible_insertExpirable h.expiring, if_neg hne]
    · rw [TimedMap.visible_insertExpirable h.expiring, if_pos rfl, hclock]
      by_cases hlate : now + lockDuration ≤ t
      · simp only [hlate, if_true, Slot.liveText, Slot.expired, Option.any_some, decide_true]
        exact Option.Rel.none
      · simp only [hlate, if_false, Slot.liveText, Slot.expired, Option.any_some, decide_false,
          Bool.false_eq_true]
        exact Option.Rel.some hlock
  unfold AdmitsLock at hadmits
  split at hadmits
  · rename_i id token
    obtain ⟨db', hdb', hmirrors⟩ :=
      hset (.lock id) (.token token) (codec.token.compact token) rfl ⟨token, rfl, rfl⟩
    simp only [RedisStore.Calls.setLock, hdb']
    exact ⟨trivial, hmirrors⟩
  · obtain ⟨db', hdb', hmirrors⟩ := hset .stalledCheck .stallCheck
      (integerText clock.utc.timestampMicros) rfl trivial
    simp only [RedisStore.Calls.setLock, hdb']
    exact ⟨trivial, hmirrors⟩
  · exact hadmits.elim

/-! ### Records and counters -/

theorem foldl_hset (key : Key) (pairs : List (String × Text))
    (r : Server Text (QueueStreamEvent R P)) :
    pairs.foldl (fun r pair => r.exec (.hsetMultiple key [pair])) r =
      { r with
        hashes := Function.update r.hashes key
          ((pairs.foldl (fun r pair => r.exec (.hsetMultiple key [pair])) r).hashes key) } := by
  induction pairs generalizing r with
  | nil => rw [List.foldl_nil, Function.update_eq_self]
  | cons pair pairs ih =>
    rw [List.foldl_cons, ih]
    simp only [Server.exec, Function.update_self, Function.update_idem]

theorem setFields (h : Mirrors T st codec now s db) {id : ℕ} {fields : List (JobField R)}
    (hid : (s.getJob id).isSome = true) (hne : fields ≠ [])
    (hone : fields.countP JobField.isBackTrace ≤ 1) (hfits : ∀ field ∈ fields, field.Fits) :
    (RedisStore.Calls.setFields T st db codec id fields).1 = .ok () ∧
      Mirrors T st codec now (s.setFields id fields)
        (RedisStore.Calls.setFields T st db codec id fields).2 := by
  obtain ⟨job, hjob⟩ := Option.isSome_iff_exists.mp hid
  have hrecord := h.hashes_record id
  rw [hjob] at hrecord
  have hnext : codec.format.Represents
      ((st.setFields T codec id fields db.toServer).hashes (st.recordKey T id))
      (fields.foldl Job.setField job) :=
    JobCodec.represents_setFields hfits hone hrecord
  have hget : (s.setFields id fields).getJob id = some (fields.foldl Job.setField job) := by
    rw [InMemoryStore.setFields, InMemoryStore.getJob_modify, if_pos rfl, hjob]
    rfl
  rw [RedisStore.Calls.setFields, if_neg (by simpa using hne)]
  refine ⟨rfl, ?_⟩
  have hset := h.setRecord id (s.setFields id fields).jobs
    ((st.setFields T codec id fields db.toServer).hashes (st.recordKey T id))
    (fun j hj => ?_) ?_
  · have hdb : db.onServer (RedisStore.setFields T st codec id fields) = db.onServer fun r =>
        { r with
          hashes := Function.update r.hashes (st.recordKey T id)
            ((st.setFields T codec id fields db.toServer).hashes (st.recordKey T id)) } :=
      congrArg (fun r => ({ db with toServer := r } : Keyspace (QueueStreamEvent R P)))
        (foldl_hset (st.recordKey T id) _ db.toServer)
    rw [hdb]
    exact hset
  · exact ((s.getJob_modify id _ j).trans (if_neg hj))
  · change HoldsRecord codec _ ((s.setFields id fields).getJob id)
    rw [hget]
    exact hnext

theorem hincrby_eq {r : Server Text (QueueStreamEvent R P)} {key : Key} {field : String} {n : ℕ}
    (delta : ℤ) (hget : (r.hget key field).elim (some 0) (parseSigned 64) = some (n : ℤ))
    (hpos : 0 ≤ n + delta) (hsmall : n + delta < 2 ^ 63) :
    RedisStore.hincrby r key field delta = (some ((n + delta).toNat : ℤ),
      r.exec (.hsetMultiple key [(field, Nat.toDigits 10 (n + delta).toNat)])) := by
  have hrange : -2 ^ 63 ≤ (n : ℤ) + delta ∧ (n : ℤ) + delta < 2 ^ 63 := by omega
  have htext : integerText ((n : ℤ) + delta) = Nat.toDigits 10 ((n : ℤ) + delta).toNat := by
    rw [← integerText_natCast, Int.toNat_of_nonneg hpos]
  rw [RedisStore.hincrby, hget]
  simp only [if_pos hrange, htext, Int.toNat_of_nonneg hpos]

theorem incr_job (h : Mirrors T st codec now s db) {id : ℕ} {job : Job D R P}
    (hjob : s.getJob id = some job) (counter : JobCounter)
    (hbelow : counter.value job < 2 ^ 63 - 1) {name : CounterName}
    (htext : name.text = counter.name) (hfield : name.field = counter.field) :
    (RedisStore.Calls.incr T st db (.job id) 1 (some name)).1 =
        .ok (s.incr (.job id) 1 (some name.field)).1 ∧
      Mirrors T st codec now (s.incr (.job id) 1 (some name.field)).2
        (RedisStore.Calls.incr T st db (.job id) 1 (some name)).2 := by
  obtain ⟨text, hget, hread⟩ := h.hget_record hjob counter.key
  rw [← counter.name_eq_written] at hget
  have hparse : parseNumber 64 text = some (counter.value job) := by cases counter <;> exact hread
  have hsigned : (db.hget (st.recordKey T id) counter.name).elim (some 0) (parseSigned 64) =
      some (counter.value job : ℤ) := by
    rw [hget, Option.elim_some]
    exact parseSigned_of_parseNumber hparse (by omega)
  have hserver := hincrby_eq 1 hsigned (by omega) (by omega)
  have hrecord := h.hashes_record id
  rw [hjob] at hrecord
  have hnext : codec.format.Represents
      ((st.incr T id counter 1 db.toServer).2.hashes (st.recordKey T id))
      (InMemoryStore.incrJob job counter.field 1) :=
    JobCounter.represents_incr hrecord hbelow
  have hmemory : (s.incr (.job id) 1 (some name.field)).2.getJob id =
      some (InMemoryStore.incrJob job counter.field 1) := by
    rw [hfield, JobCounter.getJob_incr, hjob]
    rfl
  have hvalue := JobCounter.value_incrJob job counter
  have hcall : RedisStore.Calls.incr T st db (.job id) 1 (some name) =
      (.ok (counter.value job + 1), db.onServer fun r => r.exec (.hsetMultiple (st.recordKey T id)
        [(counter.name, Nat.toDigits 10 ((counter.value job : ℤ) + 1).toNat)])) := by
    have hkey : st.key T (.job id) = st.recordKey T id := rfl
    simp only [RedisStore.Calls.incr, hkey, htext, hserver]
    rfl
  have hhash : (st.incr T id counter 1 db.toServer).2 = db.toServer.exec
      (.hsetMultiple (st.recordKey T id)
        [(counter.name, Nat.toDigits 10 ((counter.value job : ℤ) + 1).toNat)]) :=
    congrArg Prod.snd hserver
  rw [hhash] at hnext
  rw [hcall]
  refine ⟨?_, ?_⟩
  · have hcounter := (s.incr (.job id) 1 (some name.field)).2.getCounter_jobCounter id counter
    rw [hmemory, Option.map_some, hvalue, ← hfield] at hcounter
    exact congrArg Except.ok (congrArg (·.getD 0) hcounter).symm
  · refine h.setRecord id (s.incr (.job id) 1 (some name.field)).2.jobs _ (fun j hj => ?_) ?_
    · exact (s.getJob_modify id _ j).trans (if_neg hj)
    · change HoldsRecord codec _ ((s.incr (.job id) 1 (some name.field)).2.getJob id)
      rw [hmemory]
      simp only [Server.exec, Function.update_self] at hnext
      exact hnext

theorem handleCounter_eq {n : ℕ} {delta : ℤ} (hpos : 0 ≤ n + delta) :
    InMemoryStore.handleCounter n delta = (n + delta).toNat := by
  unfold InMemoryStore.handleCounter
  split_ifs <;> omega

theorem incr_meta (h : Mirrors T st codec now s db) {delta : ℤ}
    (hpos : 0 ≤ s.processing + delta) (hsmall : s.processing + delta < 2 ^ 63) :
    (RedisStore.Calls.incr T st db .metaKey delta (some .processing)).1 =
        .ok (s.incr .metaKey delta (some .processing)).1 ∧
      Mirrors T st codec now (s.incr .metaKey delta (some .processing)).2
        (RedisStore.Calls.incr T st db .metaKey delta (some .processing)).2 := by
  have hmeta := h.hashes_meta
  have hsigned : (db.hget (st.metaKey T) "processing").elim (some 0) (parseSigned 64) =
      some (s.processing : ℤ) := by
    have hfield := hmeta.processing
    change (db.hget (st.metaKey T) "processing").elim _ _ at hfield
    cases hget : db.hget (st.metaKey T) "processing" with
    | none =>
      rw [hget, Option.elim_none] at hfield
      rw [Option.elim_none, hfield]
      rfl
    | some text =>
      rw [hget, Option.elim_some] at hfield
      have hparse := parseNumber_toDigits (hmeta.small.trans (by norm_num : 2 ^ 63 < 2 ^ 64))
      rw [Option.elim_some, hfield]
      exact parseSigned_of_parseNumber hparse hmeta.small
  have hserver := hincrby_eq delta hsigned hpos hsmall
  have hcall : RedisStore.Calls.incr T st db .metaKey delta (some .processing) =
      (.ok ((s.processing : ℤ) + delta).toNat, db.onServer fun r =>
        r.exec (.hsetMultiple (st.metaKey T)
          [("processing", Nat.toDigits 10 ((s.processing : ℤ) + delta).toNat)])) := by
    have hkey : st.key T .metaKey = st.metaKey T := rfl
    simp only [RedisStore.Calls.incr, hkey, CounterName.text, hserver]
    rfl
  have hnext : (s.incr .metaKey delta (some .processing)) =
      (((s.processing : ℤ) + delta).toNat,
        { s with processing := ((s.processing : ℤ) + delta).toNat }) := by
    simp only [InMemoryStore.incr, handleCounter_eq hpos]
  rw [hcall, hnext]
  refine ⟨rfl, h.setMeta ((s.processing : ℤ) + delta).toNat s.isPaused ⟨?_, by omega, ?_, ?_⟩⟩
  · rw [Server.lookupField_mergeFields]
    rfl
  · rw [Server.lookupField_mergeFields]
    exact hmeta.paused
  · rw [Server.lookupField_mergeFields]
    exact hmeta.eventMode

theorem incr (h : Mirrors T st codec now s db) {key : CollectionSuffix} {delta : ℤ}
    {hashKey : Option CounterName} (hadmits : AdmitsIncrement s delta key hashKey) :
    (RedisStore.Calls.incr T st db key delta hashKey).1 =
        .ok (s.incr key delta (hashKey.map CounterName.field)).1 ∧
      Mirrors T st codec now (s.incr key delta (hashKey.map CounterName.field)).2
        (RedisStore.Calls.incr T st db key delta hashKey).2 := by
  unfold AdmitsIncrement at hadmits
  split at hadmits
  · obtain ⟨rfl, job, hjob, hbelow⟩ := hadmits
    exact h.incr_job hjob .attemptsMade hbelow rfl rfl
  · obtain ⟨rfl, job, hjob, hbelow⟩ := hadmits
    exact h.incr_job hjob .stalledCounter hbelow rfl rfl
  · exact h.incr_meta hadmits.1 hadmits.2
  · exact hadmits.elim

theorem renameList_eq (r : Server Text (QueueStreamEvent R P)) (src dst : Key)
    (hempty : r.lists src = [] ∨ r.lists dst = []) :
    (if r.listExists src then r.renameList src dst else r) =
      { r with
        lists := Function.update (Function.update r.lists src []) dst
          (r.lists dst ++ r.lists src) } := by
  by_cases hsrc : r.lists src = []
  · have hself : Function.update r.lists src [] = r.lists := by
      rw [← hsrc, Function.update_eq_self]
    have hself' : Function.update r.lists dst (r.lists dst) = r.lists := Function.update_eq_self _ _
    simp only [Server.listExists, hsrc, List.isEmpty_nil, Bool.not_true, Bool.false_eq_true,
      if_false, hself, List.append_nil, hself']
  · have hdst := hempty.resolve_left hsrc
    have hexists : r.listExists src = true := by simpa [Server.listExists] using hsrc
    rw [hexists, if_pos rfl, Server.renameList, hdst, List.nil_append]

theorem moveListed (h : Mirrors T st codec now s db) (src dst : Listed)
    (hempty : (s.deque src).values = [] ∨ (s.deque dst).values = []) :
    Mirrors T st codec now
      ((s.setDeque src (ConcurrentDeque.drainInto (s.deque src).len (s.deque src) (s.deque dst)).1
        ).setDeque dst
          (ConcurrentDeque.drainInto (s.deque src).len (s.deque src) (s.deque dst)).2)
      (db.onServer fun r =>
        if r.listExists (st.key T src.suffix) then
          r.renameList (st.key T src.suffix) (st.key T dst.suffix)
        else r) := by
  obtain ⟨hsrc, hdst⟩ := ConcurrentDeque.drainInto_len (s.deque src) (s.deque dst)
  have hlists := h.lists_eq
  have hfirst := h.setDeque src (l := []) hsrc.symm
  have hsecond := hfirst.setDeque dst hdst.symm
  have hserver := renameList_eq db.toServer (st.key T src.suffix) (st.key T dst.suffix)
    (by rw [hlists, hlists]; exact hempty)
  rw [hlists, hlists] at hserver
  exact cast (congrArg (fun r => Mirrors T st codec now _
    ({ db with toServer := r } : Keyspace (QueueStreamEvent R P))) hserver.symm) hsecond

theorem lookupField_filter (fields : List (String × Text)) (name field : String) :
    Server.lookupField (fields.filter fun f => f.1 ≠ name) field =
      if field = name then none else Server.lookupField fields field := by
  unfold Server.lookupField
  rw [List.find?_filter]
  split_ifs with hname
  · rw [Option.map_eq_none_iff, List.find?_eq_none]
    intro f _
    simp [hname]
  · congr 2
    funext f
    by_cases hf : f.1 = field
    · simp [hf, hname]
    · simp [hf]

theorem setPaused (h : Mirrors T st codec now s db) (pause : Bool) :
    Mirrors T st codec now { s with isPaused := pause } (db.onServer fun r =>
      if pause then r.exec (.hsetMultiple (st.metaKey T) [("paused", ['1'])])
      else r.hdel (st.metaKey T) "paused") := by
  have hmeta := h.hashes_meta
  cases pause with
  | true =>
    refine h.setMeta s.processing true ⟨?_, hmeta.small, ?_, ?_⟩
    · rw [Server.lookupField_mergeFields]
      exact hmeta.processing
    · rw [Server.lookupField_mergeFields]
      rfl
    · rw [Server.lookupField_mergeFields]
      exact hmeta.eventMode
  | false =>
    refine h.setMeta s.processing false ⟨?_, hmeta.small, ?_, ?_⟩
    · rw [lookupField_filter]
      exact hmeta.processing
    · rw [lookupField_filter]
      rfl
    · rw [lookupField_filter]
      exact hmeta.eventMode

theorem pause (h : Mirrors T st codec now s db) (pause : Bool)
    (hempty : s.waiting.values = [] ∨ s.paused.values = []) :
    Mirrors T st codec now (s.pause pause) (db.onServer fun r => st.pause T ['1'] r pause) := by
  cases pause with
  | true => exact (h.moveListed .wait .paused hempty).setPaused true
  | false =>
    exact (h.moveListed .paused .wait hempty.symm).setPaused false

end Mirrors

namespace RedisStore

variable {T : CaseTable} {st : RedisStore} {codec : RedisCodec D R P} {clock : Clock}
  {s : InMemoryStore D R P} {db : Keyspace (QueueStreamEvent R P)}

end RedisStore

end Kiomq
