import Kiomq.Redis.Insertion
import Kiomq.Redis.Ranges
import Kiomq.Stores.Membership

/-!
# Taking due jobs from the delayed set

The contract of `get_delayed_at` is stated over an abstract set of delayed jobs: those with a
score in `[start, stop]` are due, those with a smaller score are late, the others remain. Both
stores hold such a set. The Redis store meets the contract. The in-memory store leaves out the
bound `stop` and the score `start - 1`, and takes a negative score for a large one.
-/

namespace Kiomq

open Foundations Redis

variable {D R P V M : Type}

/-- Delayed jobs with their scores, which are distinct, in the order of the scores. -/
structure DelayedSet where
  entries : List (ℕ × ℤ)
  sorted : entries.Pairwise fun e f => e.2 < f.2
  bounded : ∀ e ∈ entries, -2 ^ 63 ≤ e.2 ∧ e.2 < 2 ^ 63

namespace DelayedSet

def filter (d : DelayedSet) (keep : ℕ × ℤ → Bool) : DelayedSet where
  entries := d.entries.filter keep
  sorted := d.sorted.filter keep
  bounded e he := d.bounded e (List.mem_of_mem_filter he)

/-- The contract: the due jobs, the late ones, and what remains. -/
def getDelayedAt (d : DelayedSet) (start stop : ℤ) : (List ℕ × List ℕ) × DelayedSet :=
  (((d.entries.filter fun e => decide (start ≤ e.2 ∧ e.2 ≤ stop)).map Prod.fst,
    (d.entries.filter fun e => decide (e.2 < start)).map Prod.fst),
    d.filter fun e => decide (stop < e.2))

def keyed (e : ℕ × ℤ) : ℕ × ℕ := (castUnsigned e.2, e.1)

theorem eq_of_keyed_eq (d : DelayedSet) {e f : ℕ × ℤ} (he : e ∈ d.entries) (hf : f ∈ d.entries)
    (h : keyed e = keyed f) : e = f := by
  have hkey : castUnsigned e.2 = castUnsigned f.2 := congrArg Prod.fst h
  have hbound := d.bounded e he
  have hbound' := d.bounded f hf
  unfold castUnsigned at hkey
  have hscore : e.2 = f.2 := by omega
  have hid : e.1 = f.1 := congrArg Prod.snd h
  exact Prod.ext hid hscore

end DelayedSet

/-! ### Redis -/

namespace RedisStore

def delayedSetKey (T : CaseTable) (st : RedisStore) : Key :=
  CollectionSuffix.delayed.toCollectionName T st.keyPrefix st.name

/-- The four commands of `get_delayed_at` are sent as one transaction. -/
def getDelayedAt (T : CaseTable) (st : RedisStore) (r : Server V M) (start stop : ℤ) :
    (List ℕ × List ℕ) × Server V M :=
  let key := st.delayedSetKey T
  let jobs := r.zrangebyscore key (.inclusive start) (.inclusive stop)
  let missedDeadline := r.zrangebyscore key .unbounded (.exclusive start)
  let r := r.zremrangebyscore key (.inclusive start) (.inclusive stop)
  let r := r.zremrangebyscore key .unbounded (.inclusive start)
  ((jobs, missedDeadline), r)

def HoldsDelayed (T : CaseTable) (st : RedisStore) (r : Server V M) (d : DelayedSet) : Prop :=
  (r.zsets (st.delayedSetKey T)).Perm d.entries

def MeetsContract (T : CaseTable) (st : RedisStore) (r : Server V M) (d : DelayedSet)
    (start stop : ℤ) : Prop :=
  (st.getDelayedAt T r start stop).1 = (d.getDelayedAt start stop).1 ∧
    st.HoldsDelayed T (st.getDelayedAt T r start stop).2 (d.getDelayedAt start stop).2

theorem meetsContract (T : CaseTable) (st : RedisStore) {r : Server V M} {d : DelayedSet}
    (hholds : st.HoldsDelayed T r d) {start stop : ℤ} (hle : start ≤ stop) :
    st.MeetsContract T r d start stop := by
  have hsorted : r.zsorted (st.delayedSetKey T) = d.entries := r.zsorted_eq d.sorted hholds
  refine ⟨Prod.ext ?_ ?_, ?_⟩
  · simp [getDelayedAt, DelayedSet.getDelayedAt, Server.zrangebyscore, hsorted,
      ScoreBound.below, ScoreBound.above]
  · simp [getDelayedAt, DelayedSet.getDelayedAt, Server.zrangebyscore, hsorted,
      ScoreBound.below, ScoreBound.above]
  · have hrest : ∀ e ∈ r.zsets (st.delayedSetKey T),
        (!(ScoreBound.unbounded.below e.2 && (ScoreBound.inclusive start).above e.2) &&
          !((ScoreBound.inclusive start).below e.2 && (ScoreBound.inclusive stop).above e.2)) =
          decide (stop < e.2) := by
      intro e _
      rw [Bool.eq_iff_iff]
      simp only [ScoreBound.below, ScoreBound.above, Bool.true_and, Bool.and_eq_true,
        Bool.not_eq_true', Bool.and_eq_false_iff, decide_eq_false_iff_not, decide_eq_true_eq]
      omega
    unfold HoldsDelayed
    simp only [getDelayedAt, Server.zremrangebyscore, Function.update_self]
    rw [List.filter_filter, List.filter_congr hrest]
    exact hholds.filter _

end RedisStore

/-! ### In memory -/

namespace InMemoryStore

def HoldsDelayed (s : InMemoryStore D R P) (d : DelayedSet) : Prop :=
  s.delayed.entries.Perm (d.entries.map DelayedSet.keyed)

def MeetsContract (s : InMemoryStore D R P) (d : DelayedSet) (start stop : ℤ) : Prop :=
  (s.getDelayedAt start stop).1 = (d.getDelayedAt start stop).1 ∧
    (s.getDelayedAt start stop).2.HoldsDelayed (d.getDelayedAt start stop).2

section Window

variable {s : InMemoryStore D R P} {d : DelayedSet} {start stop : ℤ}

/-- What is neither due nor late in memory: a negative score, the one before `start`, and
those from `stop` on. -/
theorem remains_iff {e : ℕ × ℤ} (he : e ∈ d.entries) (hstart : 1 ≤ start) (hle : start ≤ stop)
    (hstop : stop < 2 ^ 63) :
    (¬ (castUnsigned start ≤ castUnsigned e.2 ∧ castUnsigned e.2 < castUnsigned stop) ∧
      ¬ castUnsigned e.2 < castUnsigned (start - 1)) ↔
      e.2 < 0 ∨ e.2 = start - 1 ∨ stop ≤ e.2 := by
  obtain ⟨hlow, hhigh⟩ := d.bounded e he
  rw [castUnsigned_of_nonneg (x := start) (by omega) (by omega),
    castUnsigned_of_nonneg (x := stop) (by omega) (by omega),
    castUnsigned_of_nonneg (x := start - 1) (by omega) (by omega)]
  rcases Int.lt_or_le e.2 0 with hneg | hpos
  · rw [castUnsigned_of_neg hneg hlow]
    omega
  · rw [castUnsigned_of_nonneg hpos hhigh]
    omega

theorem due_iff {e : ℕ × ℤ} (he : e ∈ d.entries) (hstart : 1 ≤ start) (hle : start ≤ stop)
    (hstop : stop < 2 ^ 63) (hscore : 0 ≤ e.2 ∧ e.2 ≠ start - 1 ∧ e.2 ≠ stop) :
    (castUnsigned start ≤ castUnsigned e.2 ∧ castUnsigned e.2 < castUnsigned stop) ↔
      start ≤ e.2 ∧ e.2 ≤ stop := by
  rw [castUnsigned_of_nonneg (x := start) (by omega) (by omega),
    castUnsigned_of_nonneg (x := stop) (by omega) (by omega),
    castUnsigned_of_nonneg hscore.1 (d.bounded e he).2]
  omega

theorem late_iff {e : ℕ × ℤ} (he : e ∈ d.entries) (hstart : 1 ≤ start) (hle : start ≤ stop)
    (hstop : stop < 2 ^ 63) (hscore : 0 ≤ e.2 ∧ e.2 ≠ start - 1 ∧ e.2 ≠ stop) :
    castUnsigned e.2 < castUnsigned (start - 1) ↔ e.2 < start := by
  rw [castUnsigned_of_nonneg (x := start - 1) (by omega) (by omega),
    castUnsigned_of_nonneg hscore.1 (d.bounded e he).2]
  omega

theorem mem_getDelayedAt {x : ℕ × ℕ} :
    x ∈ (s.getDelayedAt start stop).2.delayed.entries ↔ x ∈ s.delayed.entries ∧
      ¬ (castUnsigned start ≤ x.1 ∧ x.1 < castUnsigned stop) ∧
      ¬ x.1 < castUnsigned (start - 1) := by
  simp only [getDelayedAt, OrderedMap.entries_filter, List.mem_filter, Bool.not_eq_true',
    decide_eq_false_iff_not, and_assoc]

/-- What remains in memory is to remain, so no score may be one of those left out. -/
theorem scores_of_holds (hholds : s.HoldsDelayed d) (hstart : 1 ≤ start) (hle : start ≤ stop)
    (hstop : stop < 2 ^ 63)
    (hrest : (s.getDelayedAt start stop).2.HoldsDelayed (d.getDelayedAt start stop).2) :
    ∀ e ∈ d.entries, 0 ≤ e.2 ∧ e.2 ≠ start - 1 ∧ e.2 ≠ stop := by
  intro e he
  have hmem : DelayedSet.keyed e ∈ s.delayed.entries :=
    hholds.mem_iff.mpr (List.mem_map_of_mem he)
  have hlater : e.2 < 0 ∨ e.2 = start - 1 ∨ stop ≤ e.2 → stop < e.2 := by
    intro hremains
    have hin := mem_getDelayedAt.mpr ⟨hmem, (remains_iff he hstart hle hstop).mpr hremains⟩
    obtain ⟨f, hf, hkeyed⟩ := List.mem_map.mp (hrest.mem_iff.mp hin)
    obtain ⟨hfmem, hfstop⟩ := List.mem_filter.mp hf
    obtain rfl := d.eq_of_keyed_eq hfmem he hkeyed
    exact of_decide_eq_true hfstop
  omega

theorem entries_eq_map (hholds : s.HoldsDelayed d) (hpos : ∀ e ∈ d.entries, 0 ≤ e.2) :
    s.delayed.entries = d.entries.map DelayedSet.keyed := by
  have hsorted : (d.entries.map DelayedSet.keyed).Pairwise fun x y => x.1 < y.1 := by
    rw [List.pairwise_map]
    refine d.sorted.imp_of_mem ?_
    intro e f he hf hlt
    have hkey : castUnsigned e.2 = e.2.toNat :=
      castUnsigned_of_nonneg (hpos e he) (d.bounded e he).2
    have hkey' : castUnsigned f.2 = f.2.toNat :=
      castUnsigned_of_nonneg (hpos f hf) (d.bounded f hf).2
    have hfirst := hpos e he
    simp only [DelayedSet.keyed, hkey, hkey']
    omega
  refine List.Perm.eq_of_pairwise ?_ s.delayed.sorted hsorted hholds
  intro x y _ _ hxy hyx
  exact absurd hxy hyx.not_gt

theorem filter_entries_eq (hentries : s.delayed.entries = d.entries.map DelayedSet.keyed)
    {p : ℕ × ℕ → Bool} {q : ℕ × ℤ → Bool}
    (h : ∀ e ∈ d.entries, p (DelayedSet.keyed e) = q e) :
    s.delayed.entries.filter p = (d.entries.filter q).map DelayedSet.keyed := by
  rw [hentries, List.filter_map]
  exact congrArg (List.map DelayedSet.keyed) (List.filter_congr h)

theorem values_keyed (entries : List (ℕ × ℤ)) :
    (entries.map DelayedSet.keyed).map Prod.snd = entries.map Prod.fst := by
  rw [List.map_map]
  rfl

theorem meetsContract_of_scores (hholds : s.HoldsDelayed d) (hstart : 1 ≤ start)
    (hle : start ≤ stop) (hstop : stop < 2 ^ 63)
    (hscores : ∀ e ∈ d.entries, 0 ≤ e.2 ∧ e.2 ≠ start - 1 ∧ e.2 ≠ stop) :
    s.MeetsContract d start stop := by
  have hentries := entries_eq_map hholds fun e he => (hscores e he).1
  have hdue := fun e he => due_iff he hstart hle hstop (hscores e he)
  have hlate := fun e he => late_iff he hstart hle hstop (hscores e he)
  refine ⟨Prod.ext ?_ ?_, ?_⟩
  · refine (congrArg (List.map Prod.snd) (filter_entries_eq hentries ?_)).trans (values_keyed _)
    intro e he
    exact decide_eq_decide.mpr (hdue e he)
  · simp only [getDelayedAt, OrderedMap.values, OrderedMap.entries_filter, List.filter_filter]
    refine (congrArg (List.map Prod.snd) (filter_entries_eq hentries ?_)).trans (values_keyed _)
    intro e he
    simp only [DelayedSet.keyed, hdue e he, hlate e he]
    grind
  · unfold HoldsDelayed
    simp only [getDelayedAt, OrderedMap.entries_filter, List.filter_filter]
    refine List.Perm.of_eq (filter_entries_eq hentries ?_)
    intro e he
    simp only [DelayedSet.keyed, hdue e he, hlate e he]
    grind

end Window

end InMemoryStore

/-! ### Both stores -/

/-- Two stores that hold the same delayed jobs answer alike and as the contract says just if no
score is negative, `start - 1` or `stop`. -/
theorem getDelayedAt_contract_iff (T : CaseTable) (st : RedisStore) (r : Server V M)
    (s : InMemoryStore D R P) (d : DelayedSet) (hredis : st.HoldsDelayed T r d)
    (hmemory : s.HoldsDelayed d) {start stop : ℤ} (hstart : 1 ≤ start) (hle : start ≤ stop)
    (hstop : stop < 2 ^ 63) :
    (s.MeetsContract d start stop ∧ st.MeetsContract T r d start stop) ↔
      ∀ e ∈ d.entries, 0 ≤ e.2 ∧ e.2 ≠ start - 1 ∧ e.2 ≠ stop := by
  rw [and_iff_left (st.meetsContract T hredis hle)]
  constructor
  · rintro ⟨-, hrest⟩
    exact InMemoryStore.scores_of_holds hmemory hstart hle hstop hrest
  · exact InMemoryStore.meetsContract_of_scores hmemory hstart hle hstop

def InMemoryStore.withDelayed (entries : List (ℕ × ℤ)) : InMemoryStore Unit Unit Unit :=
  entries.foldl (fun s e => s.addItem .delayed e.1 (some e.2) false) mail

def RedisStore.withDelayed (entries : List (ℕ × ℤ)) : Server Unit Unit :=
  let key := RedisStore.delayedSetKey .ascii ⟨"kio", "mail"⟩
  Server.empty.execAll (entries.map fun e => .zadd key e.1 e.2)

def farApart : DelayedSet where
  entries := [(1, 5), (2, 12), (3, 20)]
  sorted := by decide
  bounded := by decide

theorem farApart_contract :
    (InMemoryStore.withDelayed farApart.entries).MeetsContract farApart 10 15 :=
  ((getDelayedAt_contract_iff .ascii ⟨"kio", "mail"⟩ (RedisStore.withDelayed farApart.entries)
    (InMemoryStore.withDelayed farApart.entries) farApart
    (by unfold RedisStore.HoldsDelayed; decide +kernel)
    (by unfold InMemoryStore.HoldsDelayed; decide +kernel) (by decide) (by decide)
    (by decide)).mpr (by decide)).1

def atBounds : DelayedSet where
  entries := [(1, 9), (2, 12), (3, 15)]
  sorted := by decide
  bounded := by decide

/-- The window `[10, 15]`: in memory the late job and the one at the end are not returned, and
both remain. Redis returns all three. -/
theorem atBounds_left_behind :
    (InMemoryStore.withDelayed atBounds.entries).HoldsDelayed atBounds ∧
      RedisStore.HoldsDelayed .ascii ⟨"kio", "mail"⟩ (RedisStore.withDelayed atBounds.entries)
        atBounds ∧
      (atBounds.getDelayedAt 10 15).1 = ([2, 3], [1]) ∧
      (RedisStore.getDelayedAt .ascii ⟨"kio", "mail"⟩ (RedisStore.withDelayed atBounds.entries)
        10 15).1 = ([2, 3], [1]) ∧
      ((InMemoryStore.withDelayed atBounds.entries).getDelayedAt 10 15).1 = ([2], []) ∧
      ((InMemoryStore.withDelayed atBounds.entries).getDelayedAt 10 15).2.delayed.entries =
        [(9, 1), (15, 3)] := by
  unfold InMemoryStore.HoldsDelayed RedisStore.HoldsDelayed
  refine ⟨by decide +kernel, by decide +kernel, by decide, ?_, by decide +kernel, by decide +kernel⟩
  decide +kernel

end Kiomq
