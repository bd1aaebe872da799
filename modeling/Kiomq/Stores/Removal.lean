import Kiomq.Stores.Membership
import Kiomq.Stores.TaggedMaps

/-!
# Taking a job out of a collection

`remove_item` receives an id. In the scored collections it first looks the id up as a score,
and deletes the entry that is stored there. Only if there is none are the entries searched for
the id. `remove` receives the name of a collection, a record or a lock and deletes all of it.
Records and locks are deleted under tags, in which the number of a job is cut off.
-/

namespace Kiomq

open Foundations

variable {D R P : Type}

/-- The collections that `remove_item` takes an id out of. -/
inductive Collection
  | active
  | wait
  | paused
  | stalled
  | scored (col : Scored)
  deriving DecidableEq, Repr

def Collection.suffix : Collection → CollectionSuffix
  | active => .active
  | wait => .wait
  | paused => .paused
  | stalled => .stalled
  | scored col => col.suffix

namespace InMemoryStore

/-- The entries of a collection, with the score or the index that each stands under. A member
of the set of stalled jobs stands under itself. -/
def entriesOf (s : InMemoryStore D R P) : Collection → List (ℤ × ℕ)
  | .active => s.active.data.entries
  | .wait => s.waiting.data.entries
  | .paused => s.paused.data.entries
  | .stalled => s.stalled.keys.map fun id : ℕ => ((id : ℤ), id)
  | .scored col => (s.scores col).entries.map fun e => ((e.1 : ℤ), e.2)

/-- Exactly the entries with the id are gone from the collection, and nothing else has
changed. -/
structure RemovedExactly (s t : InMemoryStore D R P) (col : Collection) (id : ℕ) : Prop where
  named : t.entriesOf col = (s.entriesOf col).filter fun e => e.2 ≠ id
  others : ∀ col', col' ≠ col → t.entriesOf col' = s.entriesOf col'
  records : t.jobs = s.jobs
  locks : t.locks = s.locks

/-- If the id is a score of the collection, it is the score of its own entry, and of no other
entry of the id. -/
def ScoreApart (s : InMemoryStore D R P) (id : ℕ) : Collection → Prop
  | .scored col =>
    (s.scores col).containsKey id = true →
      ∀ e ∈ (s.scores col).entries, e.1 = id ↔ e.2 = id
  | _ => True

theorem scores_removeItem (s : InMemoryStore D R P) (col : Scored) (id : ℕ) :
    (s.removeItem col.suffix id).scores col = removeScored (s.scores col) id := by
  cases col <;> rfl

/-- The search for a score finds what the search for the id finds just if the id and the score
single out the same entries. -/
theorem entries_removeScored_iff (m : OrderedMap ℕ ℕ) (id : ℕ) :
    (removeScored m id).entries = m.entries.filter (fun e => e.2 ≠ id) ↔
      (m.containsKey id = true → ∀ e ∈ m.entries, e.1 = id ↔ e.2 = id) := by
  unfold removeScored
  by_cases hkey : m.containsKey id = true
  · have hremove : (m.remove id).entries = m.entries.filter fun e => e.1 ≠ id := rfl
    rw [if_pos hkey, hremove, filter_eq_filter_iff]
    simp only [hkey, forall_true_left, decide_eq_decide]
    exact forall₂_congr fun e _ => not_iff_not
  · rw [if_neg hkey]
    exact iff_of_true rfl fun h => absurd h hkey

theorem entriesOf_removeItem_of_ne (s : InMemoryStore D R P) {col col' : Collection}
    (h : col' ≠ col) (id : ℕ) : (s.removeItem col.suffix id).entriesOf col' = s.entriesOf col' := by
  cases col with
  | scored c =>
    cases c <;> cases col' with
    | scored c' => cases c' <;> first | rfl | exact absurd rfl h
    | _ => rfl
  | _ =>
    cases col' with
    | scored c' => cases c' <;> rfl
    | _ => first | rfl | exact absurd rfl h

theorem removeItem_frame (s : InMemoryStore D R P) (col : Collection) (id : ℕ) :
    (s.removeItem col.suffix id).jobs = s.jobs ∧ (s.removeItem col.suffix id).locks = s.locks := by
  cases col with
  | scored c => cases c <;> exact ⟨rfl, rfl⟩
  | _ => exact ⟨rfl, rfl⟩

theorem entriesOf_removeItem_stalled (s : InMemoryStore D R P) (id : ℕ) :
    (s.removeItem .stalled id).entriesOf .stalled =
      (s.entriesOf .stalled).filter fun e => e.2 ≠ id := by
  simp only [entriesOf, removeItem, OrderedMap.remove, OrderedMap.keys, OrderedMap.entries_filter,
    List.filter_map, Function.comp_def]

/-- A removal is exact just if the search for a score does not miss the id. -/
theorem removeItem_exact_iff (s : InMemoryStore D R P) (col : Collection) (id : ℕ) :
    RemovedExactly s (s.removeItem col.suffix id) col id ↔ s.ScoreApart id col := by
  have hframe : (s.removeItem col.suffix id).entriesOf col =
      (s.entriesOf col).filter (fun e => e.2 ≠ id) ↔
        RemovedExactly s (s.removeItem col.suffix id) col id := by
    obtain ⟨hrecords, hlocks⟩ := s.removeItem_frame col id
    constructor
    · intro hnamed
      exact ⟨hnamed, fun col' hne => s.entriesOf_removeItem_of_ne hne id, hrecords, hlocks⟩
    · exact fun h => h.named
  rw [← hframe]
  cases col with
  | active => exact iff_of_true rfl trivial
  | wait => exact iff_of_true rfl trivial
  | paused => exact iff_of_true rfl trivial
  | stalled => exact iff_of_true (s.entriesOf_removeItem_stalled id) trivial
  | scored c =>
    have hinj : Function.Injective fun e : ℕ × ℕ => ((e.1 : ℤ), e.2) := by
      rintro ⟨k, v⟩ ⟨k', v'⟩ h
      simpa using h
    have hmap : (s.entriesOf (.scored c)).filter (fun e => e.2 ≠ id) =
        ((s.scores c).entries.filter fun e => e.2 ≠ id).map fun e => ((e.1 : ℤ), e.2) := by
      simp only [entriesOf, List.filter_map, Function.comp_def]
    rw [hmap]
    change ((s.removeItem c.suffix id).scores c).entries.map _ = _ ↔ _
    rw [scores_removeItem, (List.map_injective_iff.mpr hinj).eq_iff]
    exact entries_removeScored_iff (s.scores c) id

/-- Job 7 has finished at the microsecond 3, and job 3 later. Taking out job 3 takes out job 7
instead. -/
theorem removeItem_takes_score :
    let s := (mail.addItem .completed 7 (some 3) true).addItem .completed 3 (some 9) true
    s.entriesOf (.scored .completed) = [(3, 7), (9, 3)] ∧
      (s.removeItem .completed 3).entriesOf (.scored .completed) = [(9, 3)] ∧
      ¬ RemovedExactly s (s.removeItem .completed 3) (.scored .completed) 3 := by
  refine ⟨by decide +kernel, by decide +kernel, fun h => ?_⟩
  have hnamed := h.named
  revert hnamed
  decide +kernel

/-! ### Deleting a collection -/

/-- What `remove` deletes: a collection of jobs, a job record, or a lock. -/
inductive Deletable
  | collection (col : Collection)
  | job (id : ℕ)
  | lock (id : ℕ)
  | stalledCheck
  deriving DecidableEq, Repr

namespace Deletable

def suffix : Deletable → CollectionSuffix
  | collection col => col.suffix
  | job id => .job id
  | lock id => .lock id
  | stalledCheck => .stalledCheck

def recordKey : Deletable → Option CollectionSuffix
  | job id => some (.job id)
  | _ => none

def lockKey : Deletable → Option CollectionSuffix
  | lock id => some (.lock id)
  | stalledCheck => some .stalledCheck
  | _ => none

end Deletable

theorem entriesOf_remove (s : InMemoryStore D R P) {col : Collection}
    (h : col ≠ .scored .completed) (col' : Collection) :
    (s.remove col.suffix).entriesOf col' = if col' = col then [] else s.entriesOf col' := by
  cases col with
  | scored c =>
    cases c <;> cases col' with
    | scored c' => cases c' <;> first | rfl | exact absurd rfl h
    | _ => first | rfl | exact absurd rfl h
  | _ =>
    cases col' with
    | scored c' => cases c' <;> rfl
    | _ => rfl

/-- For the completed jobs the collection of active jobs is emptied. -/
theorem entriesOf_remove_completed (s : InMemoryStore D R P) (col : Collection) :
    (s.remove .completed).entriesOf col = if col = .active then [] else s.entriesOf col := by
  cases col with
  | scored c => cases c <;> rfl
  | _ => rfl

end InMemoryStore

/-- A store with the maps under tags that the source keeps in place of its records and locks. -/
structure TaggedStore (D R P : Type) where
  store : InMemoryStore D R P
  jobs : TimedMap ℕ (Job D R P)
  locks : TimedMap ℕ Lock
  jobs_rekeyed : store.jobs.map.inner.Rekeyed CollectionSuffix.tag {s | s.payload < 2 ^ 56}
    jobs.inner
  locks_rekeyed : store.locks.inner.Rekeyed CollectionSuffix.tag {s | s.payload < 2 ^ 56}
    locks.inner

namespace TaggedStore

open InMemoryStore

/-- `remove` of the source. The maps under suffixes lose the entry with the same tag. -/
def remove (t : TaggedStore D R P) (key : CollectionSuffix) : TaggedStore D R P where
  store := t.store.remove key.fitted
  jobs :=
    match key with
    | .job _ => t.jobs.remove key.tag
    | _ => t.jobs
  locks :=
    match key with
    | .lock _ => t.locks.remove key.tag
    | .stalledCheck => t.locks.remove key.tag
    | _ => t.locks
  jobs_rekeyed := by
    have hremove := t.jobs_rekeyed.remove CollectionSuffix.strictMonoOn_tag key.payload_fitted_lt
    rw [key.tag_fitted] at hremove
    cases key with
    | job _ => exact hremove
    | _ => exact t.jobs_rekeyed
  locks_rekeyed := by
    have hremove := t.locks_rekeyed.remove CollectionSuffix.strictMonoOn_tag key.payload_fitted_lt
    rw [key.tag_fitted] at hremove
    cases key with
    | lock _ => exact hremove
    | stalledCheck => exact hremove
    | _ => exact t.locks_rekeyed

/-- The named entry of a map is absent, and no entry of another name has changed. -/
structure EntryDeleted {V : Type} (named : Option CollectionSuffix) (m m' : TimedMap ℕ V) :
    Prop where
  gone : ∀ key ∈ named, m'.inner.get? key.tag = none
  others : ∀ key : CollectionSuffix, key.payload < 2 ^ 56 → key ∉ named →
    m'.inner.get? key.tag = m.inner.get? key.tag

/-- What was named is empty or absent, and nothing else has changed. -/
structure DeletedOnly (s t : TaggedStore D R P) (item : Deletable) : Prop where
  emptied : ∀ col, item = .collection col → t.store.entriesOf col = []
  collections : ∀ col, item ≠ .collection col → t.store.entriesOf col = s.store.entriesOf col
  records : EntryDeleted item.recordKey s.jobs t.jobs
  locks : EntryDeleted item.lockKey s.locks t.locks

/-- The number of the named entry fits into a tag, or there is no entry under its tag. -/
def TagApart {V : Type} (m : TimedMap ℕ V) (named : Option CollectionSuffix) : Prop :=
  ∀ key ∈ named, key.payload < 2 ^ 56 ∨ m.inner.get? key.tag = none

/-! ### One entry of a map -/

def removeNamed {V : Type} (m : TimedMap ℕ V) (named : Option CollectionSuffix) : TimedMap ℕ V :=
  named.elim m fun key => m.remove key.tag

theorem get?_removeNamed {V : Type} (m : TimedMap ℕ V) (key : CollectionSuffix) (tag : ℕ) :
    (removeNamed m (some key)).inner.get? tag =
      if tag = key.tag then none else m.inner.get? tag :=
  OrderedMap.get?_remove _ _ _

theorem entryDeleted_removeNamed_iff {V : Type} (m : TimedMap ℕ V)
    (named : Option CollectionSuffix) :
    EntryDeleted named m (removeNamed m named) ↔ TagApart m named := by
  cases named with
  | none => exact iff_of_true ⟨nofun, fun _ _ _ => rfl⟩ nofun
  | some own =>
    constructor
    · intro h key hkey
      obtain rfl := Option.mem_some_iff.mp hkey
      refine or_iff_not_imp_left.mpr fun hfits => ?_
      have hother : own.fitted ∉ some own := by
        intro hsame
        exact hfits (Option.mem_some_iff.mp hsame ▸ own.payload_fitted_lt)
      have hkept := h.others own.fitted own.payload_fitted_lt hother
      rw [own.tag_fitted, get?_removeNamed, if_pos rfl] at hkept
      exact hkept.symm
    · intro h
      constructor
      · intro key hkey
        rw [get?_removeNamed, Option.mem_some_iff.mp hkey, if_pos rfl]
      · intro key hkey hne
        rw [get?_removeNamed]
        split_ifs with htag
        · rcases h own rfl with hfits | hnone
          · obtain rfl := CollectionSuffix.tag_injOn hkey hfits htag
            exact absurd rfl hne
          · rw [htag, hnone]
        · rfl

/-! ### The whole store -/

theorem store_remove_collection (t : TaggedStore D R P) (col : Collection) :
    (t.remove col.suffix).store = t.store.remove col.suffix := by
  cases col with
  | scored c => cases c <;> rfl
  | _ => rfl

theorem jobs_remove (t : TaggedStore D R P) (item : Deletable) :
    (t.remove item.suffix).jobs = removeNamed t.jobs item.recordKey := by
  cases item with
  | collection col =>
    cases col with
    | scored c => cases c <;> rfl
    | _ => rfl
  | _ => rfl

theorem locks_remove (t : TaggedStore D R P) (item : Deletable) :
    (t.remove item.suffix).locks = removeNamed t.locks item.lockKey := by
  cases item with
  | collection col =>
    cases col with
    | scored c => cases c <;> rfl
    | _ => rfl
  | _ => rfl

theorem deletedOnly_iff (t : TaggedStore D R P) (item : Deletable) :
    DeletedOnly t (t.remove item.suffix) item ↔
      ((∀ col, item = .collection col → (t.remove item.suffix).store.entriesOf col = []) ∧
        ∀ col, item ≠ .collection col →
          (t.remove item.suffix).store.entriesOf col = t.store.entriesOf col) ∧
        TagApart t.jobs item.recordKey ∧ TagApart t.locks item.lockKey := by
  rw [← entryDeleted_removeNamed_iff, ← entryDeleted_removeNamed_iff, ← jobs_remove, ← locks_remove]
  constructor
  · intro h
    exact ⟨⟨h.emptied, h.collections⟩, h.records, h.locks⟩
  · rintro ⟨⟨hemptied, hothers⟩, hrecords, hlocks⟩
    exact ⟨hemptied, hothers, hrecords, hlocks⟩

/-- `remove` deletes what it is told to and nothing else, unless it is told to delete the completed
jobs while there are any or while there are active jobs, or a record or a lock whose number does
not fit into its tag while there is one under that tag. -/
theorem remove_deletedOnly_iff (t : TaggedStore D R P) (item : Deletable) :
    DeletedOnly t (t.remove item.suffix) item ↔
      (item = .collection (.scored .completed) →
        t.store.entriesOf (.scored .completed) = [] ∧ t.store.entriesOf .active = []) ∧
        TagApart t.jobs item.recordKey ∧ TagApart t.locks item.lockKey := by
  rw [deletedOnly_iff]
  refine and_congr_left fun _ => ?_
  cases item with
  | collection col =>
    simp only [Deletable.collection.injEq, forall_eq', ne_eq, Deletable.suffix,
      store_remove_collection]
    by_cases hcol : col = .scored .completed
    · subst hcol
      have hremove := t.store.entriesOf_remove_completed
      constructor
      · rintro ⟨hnamed, hothers⟩ -
        exact ⟨(hremove _).symm.trans hnamed, (hothers .active (by decide)).symm.trans (hremove _)⟩
      · intro h
        obtain ⟨hcompleted, hactive⟩ := h rfl
        refine ⟨(hremove _).trans hcompleted, fun col' _ => (hremove col').trans ?_⟩
        split_ifs with hcol'
        · rw [hcol', hactive]
        · rfl
    · have hremove := t.store.entriesOf_remove hcol
      refine iff_of_true ⟨?_, fun col' hne => ?_⟩ fun h => absurd h hcol
      · rw [hremove, if_pos rfl]
      · rw [hremove, if_neg (Ne.symm hne)]
  | _ => exact iff_of_true ⟨nofun, fun _ _ => rfl⟩ nofun

def ofCollections (store : InMemoryStore D R P) (hjobs : store.jobs = .new)
    (hlocks : store.locks = .new) : TaggedStore D R P where
  store := store
  jobs := .new
  locks := .new
  jobs_rekeyed := by
    rw [hjobs]
    exact OrderedMap.Rekeyed.empty
  locks_rekeyed := by
    rw [hlocks]
    exact OrderedMap.Rekeyed.empty

def oneCompleted : TaggedStore Unit Unit Unit :=
  ofCollections ((mail.addItem .active 1 none true).addItem .completed 2 (some 9) true) rfl rfl

/-- Deleting the completed jobs leaves job 2 where it is and forgets that job 1 is active. -/
theorem remove_completed_clears_active :
    oneCompleted.store.entriesOf .active = [(0, 1)] ∧
      oneCompleted.store.entriesOf (.scored .completed) = [(9, 2)] ∧
      (oneCompleted.remove .completed).store.entriesOf .active = [] ∧
      (oneCompleted.remove .completed).store.entriesOf (.scored .completed) = [(9, 2)] ∧
      ¬ DeletedOnly oneCompleted (oneCompleted.remove .completed)
        (.collection (.scored .completed)) := by
  refine ⟨by decide +kernel, by decide +kernel, rfl, by decide +kernel, fun h => ?_⟩
  have hnamed := h.emptied _ rfl
  revert hnamed
  decide +kernel

/-- The number of a job is cut off in its tag. -/
example : (CollectionSuffix.job (2 ^ 56 + 1)).tag = (CollectionSuffix.job 1).tag := by decide

end TaggedStore

end Kiomq
