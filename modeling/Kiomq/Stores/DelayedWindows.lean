import Kiomq.Foundations.Parties
import Kiomq.Foundations.Runs
import Kiomq.Stores.InMemory

/-!
# Windows over the delayed set

`promote_jobs` asks for the delayed jobs of one window after another, and the windows may
overlap, repeat or leave gaps. Whatever they are, the delayed set and the lists returned so
far together hold every added id once.
-/

namespace Kiomq

open Foundations InMemoryStore

variable {D R P : Type}

/-- The lists that a call of `get_delayed_at` returned. -/
structure DelayedWindow where
  start : ℤ
  stop : ℤ
  due : List ℕ
  missed : List ℕ

/-- A store, the ids added to its delayed set with their scores, and the calls made. -/
structure DelayedRun (D R P : Type) where
  store : InMemoryStore D R P
  added : List (ℕ × ℤ)
  windows : List DelayedWindow

inductive DelayedAction
  | addItem (id : ℕ) (score : ℤ)
  | getDelayedAt (start stop : ℤ)

namespace DelayedRun

def start (store : InMemoryStore D R P) : DelayedRun D R P :=
  ⟨{ store with delayed := .empty }, [], []⟩

def step (σ : DelayedRun D R P) : DelayedAction → Option (DelayedRun D R P)
  | .addItem id score =>
    some { σ with
      store := σ.store.addItem .delayed id (some score) false
      added := σ.added ++ [(id, score)] }
  | .getDelayedAt start stop =>
    let out := σ.store.getDelayedAt start stop
    some { σ with
      store := out.2
      windows := σ.windows ++ [⟨start, stop, out.1.1, out.1.2⟩] }

def returned (σ : DelayedRun D R P) : List ℕ := σ.windows.flatMap fun w => w.due ++ w.missed

/-- An id is new in the run, its score is not taken, and the window is one of positive
times. The upper bounds are those of an `i64`. -/
def Proper (σ : DelayedRun D R P) : DelayedAction → Prop
  | .addItem id score =>
    id ∉ σ.added.map Prod.fst ∧ 0 < score ∧ score < 2 ^ 63 ∧
      σ.store.delayed.get? (castUnsigned score) = none
  | .getDelayedAt start stop => 1 ≤ start ∧ start ≤ stop ∧ stop < 2 ^ 63

/-- What is handed out, and what stays. -/
structure HandedOut (σ : DelayedRun D R P) : Prop where
  /-- No id occurs twice, in one list or in two. -/
  once : σ.returned.Nodup
  due : ∀ w ∈ σ.windows, ∀ id ∈ w.due, ∃ score, (id, score) ∈ σ.added ∧
    w.start ≤ score ∧ score < w.stop
  missed : ∀ w ∈ σ.windows, ∀ id ∈ w.missed, ∃ score, (id, score) ∈ σ.added ∧
    score < w.start
  kept : ∀ id score, (id, score) ∈ σ.added → id ∉ σ.returned →
    σ.store.delayed.get? (castUnsigned score) = some id

instance (σ : DelayedRun D R P) (a : DelayedAction) : Decidable (σ.Proper a) := by
  cases a with
  | addItem id score =>
    unfold Proper
    simp only
    infer_instance
  | getDelayedAt start stop =>
    unfold Proper
    simp only
    infer_instance

/-! ### The two scans -/

theorem getDelayedAt_perm (s : InMemoryStore D R P) (start stop : ℤ) :
    ((s.getDelayedAt start stop).1.1 ++ (s.getDelayedAt start stop).1.2 ++
      (s.getDelayedAt start stop).2.delayed.values).Perm s.delayed.values := by
  simp only [getDelayedAt, List.append_assoc]
  exact ((OrderedMap.values_filter_perm _ _).append_left _).trans
    (OrderedMap.values_filter_perm _ _)

theorem mem_due {s : InMemoryStore D R P} {start stop : ℤ} {id : ℕ}
    (h : id ∈ (s.getDelayedAt start stop).1.1) :
    ∃ key, (key, id) ∈ s.delayed.entries ∧ castUnsigned start ≤ key ∧ key < castUnsigned stop := by
  obtain ⟨e, he, rfl⟩ := List.mem_map.mp h
  obtain ⟨hmem, hdue⟩ := List.mem_filter.mp he
  obtain ⟨hstart, hstop⟩ := of_decide_eq_true hdue
  exact ⟨e.1, hmem, hstart, hstop⟩

theorem mem_missed {s : InMemoryStore D R P} {start stop : ℤ} {id : ℕ}
    (h : id ∈ (s.getDelayedAt start stop).1.2) :
    ∃ key, (key, id) ∈ s.delayed.entries ∧ key < castUnsigned (start - 1) := by
  obtain ⟨e, he, rfl⟩ := List.mem_map.mp h
  obtain ⟨hrest, hmissed⟩ := List.mem_filter.mp he
  exact ⟨e.1, (List.mem_filter.mp hrest).1, of_decide_eq_true hmissed⟩

theorem delayed_getDelayedAt_subset (s : InMemoryStore D R P) (start stop : ℤ) {e : ℕ × ℕ}
    (h : e ∈ (s.getDelayedAt start stop).2.delayed.entries) : e ∈ s.delayed.entries :=
  (List.mem_filter.mp (List.mem_filter.mp h).1).1

/-! ### What is returned and what is outstanding -/

/-- The ids returned and those in the delayed set are the ids added, each of which was added
once; the outstanding ones stand under their scores. -/
structure Inv (σ : DelayedRun D R P) : Prop where
  conserved : (σ.returned ++ σ.store.delayed.values).Perm (σ.added.map Prod.fst)
  fresh : (σ.added.map Prod.fst).Nodup
  scored : ∀ e ∈ σ.store.delayed.entries, ∃ score, (e.2, score) ∈ σ.added ∧
    e.1 = castUnsigned score ∧ 0 < score ∧ score < 2 ^ 63
  due : ∀ w ∈ σ.windows, ∀ id ∈ w.due, ∃ score, (id, score) ∈ σ.added ∧
    w.start ≤ score ∧ score < w.stop
  missed : ∀ w ∈ σ.windows, ∀ id ∈ w.missed, ∃ score, (id, score) ∈ σ.added ∧
    score < w.start

theorem Inv.handedOut {σ : DelayedRun D R P} (h : σ.Inv) : σ.HandedOut where
  once := by
    have hnodup := h.conserved.nodup_iff.mpr h.fresh
    exact hnodup.of_append_left
  due := h.due
  missed := h.missed
  kept := by
    intro id score hmem hnot
    have hin : id ∈ σ.returned ++ σ.store.delayed.values :=
      h.conserved.mem_iff.mpr (List.mem_map.mpr ⟨(id, score), hmem, rfl⟩)
    rcases List.mem_append.mp hin with hret | hval
    · exact absurd hret hnot
    · obtain ⟨⟨key, id'⟩, he, rfl⟩ := List.mem_map.mp hval
      obtain ⟨score', hmem', rfl, -⟩ := h.scored _ he
      have heq : ((id', score') : ℕ × ℤ) = (id', score) :=
        List.inj_on_of_nodup_map h.fresh hmem' hmem rfl
      obtain rfl := (Prod.mk.inj heq).2
      exact (OrderedMap.get?_eq_some_iff _ _ _).mpr he

theorem addItem_inv {σ τ : DelayedRun D R P} {id : ℕ} {score : ℤ} (h : σ.Inv)
    (hguard : σ.Proper (.addItem id score)) (hstep : σ.step (.addItem id score) = some τ) :
    τ.Inv := by
  obtain rfl := Option.some.inj hstep
  obtain ⟨hid, hpos, hlt, hfree⟩ := hguard
  have hold : ∀ {x : ℕ × ℤ}, x ∈ σ.added → x ∈ σ.added ++ [(id, score)] :=
    fun hx => List.mem_append_left _ hx
  constructor
  · have hvalues : (σ.store.delayed.insert (castUnsigned score) id).values.Perm
        (id :: σ.store.delayed.values) := (σ.store.delayed.insert_perm id hfree).map Prod.snd
    rw [List.map_append]
    calc List.Perm (σ.returned ++ (σ.store.delayed.insert (castUnsigned score) id).values)
          (σ.returned ++ id :: σ.store.delayed.values) := hvalues.append_left _
      List.Perm _ (id :: (σ.returned ++ σ.store.delayed.values)) := List.perm_middle
      List.Perm _ (id :: σ.added.map Prod.fst) := h.conserved.cons id
      List.Perm _ (σ.added.map Prod.fst ++ [id]) := (List.perm_append_singleton _ _).symm
  · rw [List.map_append]
    exact List.nodup_append.mpr ⟨h.fresh, by simp, by
      intro a ha b hb
      obtain rfl := List.mem_singleton.mp hb
      exact fun hab => hid (hab ▸ ha)⟩
  · intro e he
    rcases (OrderedMap.mem_insert _ _ _ _).mp he with rfl | ⟨he, -⟩
    · exact ⟨score, by simp, rfl, hpos, hlt⟩
    · obtain ⟨score', hmem, hrest⟩ := h.scored e he
      exact ⟨score', hold hmem, hrest⟩
  · intro w hw j hj
    obtain ⟨score', hmem, hrest⟩ := h.due w hw j hj
    exact ⟨score', hold hmem, hrest⟩
  · intro w hw j hj
    obtain ⟨score', hmem, hrest⟩ := h.missed w hw j hj
    exact ⟨score', hold hmem, hrest⟩

theorem getDelayedAt_inv {σ τ : DelayedRun D R P} {start stop : ℤ} (h : σ.Inv)
    (hguard : σ.Proper (.getDelayedAt start stop))
    (hstep : σ.step (.getDelayedAt start stop) = some τ) : τ.Inv := by
  obtain rfl := Option.some.inj hstep
  obtain ⟨hpos, hle, hlt⟩ := hguard
  have hstart := castUnsigned_of_nonneg (x := start) (by omega) (by omega)
  have hbefore := castUnsigned_of_nonneg (x := start - 1) (by omega) (by omega)
  have hstop := castUnsigned_of_nonneg (x := stop) (by omega) (by omega)
  constructor
  · refine List.Perm.trans ?_ h.conserved
    simp only [returned, List.flatMap_append, List.flatMap_singleton, List.append_assoc]
    apply List.Perm.append_left
    simpa using getDelayedAt_perm σ.store start stop
  · exact h.fresh
  · intro e he
    exact h.scored e (delayed_getDelayedAt_subset _ _ _ he)
  · apply forall_mem_concat h.due
    intro id hid
    obtain ⟨key, hmem, hge, hlt'⟩ := mem_due hid
    obtain ⟨score, hadded, hkey, hscore, hbound⟩ := h.scored _ hmem
    rw [castUnsigned_of_nonneg hscore.le hbound] at hkey
    refine ⟨score, hadded, ?_, ?_⟩ <;> simp only at hkey ⊢ <;> omega
  · apply forall_mem_concat h.missed
    intro id hid
    obtain ⟨key, hmem, hlt'⟩ := mem_missed hid
    obtain ⟨score, hadded, hkey, hscore, hbound⟩ := h.scored _ hmem
    rw [castUnsigned_of_nonneg hscore.le hbound] at hkey
    refine ⟨score, hadded, ?_⟩
    simp only at hkey ⊢
    omega

theorem step_inv (σ : DelayedRun D R P) (a : DelayedAction) (τ : DelayedRun D R P) (h : σ.Inv)
    (hguard : σ.Proper a) (hstep : σ.step a = some τ) : τ.Inv := by
  cases a with
  | addItem id score => exact addItem_inv h hguard hstep
  | getDelayedAt start stop => exact getDelayedAt_inv h hguard hstep

/-- Over every sequence of additions and windows, each id is handed out at most once, from
the side of the window that its score is on, and until then it stays in the delayed set. -/
theorem handedOut_of_proper (store : InMemoryStore D R P) (as : List DelayedAction)
    (h : Guarded step Proper (start store) as) : Always step HandedOut (start store) as := by
  have hinv : (start store).Inv :=
    ⟨by simp [start, returned, OrderedMap.values], by simp [start], by simp [start],
      by simp [start], by simp [start]⟩
  exact always_of_invariant step_inv (fun _ h => h.handedOut) hinv h

/-- Three jobs and three windows that overlap and repeat: job 1 is due, job 2 is missed, and
job 3 stays although its time is just before the start of the last window. -/
def overlappingWindows : List DelayedAction :=
  [.addItem 1 10, .addItem 2 40, .getDelayedAt 5 15, .getDelayedAt 5 15, .addItem 3 59,
    .getDelayedAt 60 70]

theorem overlappingWindows_handedOut :
    (run step (start (.new none "mail" : InMemoryStore Unit Unit Unit)) overlappingWindows).map
          (fun σ => (σ.windows.map fun w => (w.due, w.missed), σ.store.delayed.entries)) =
        some ([([1], []), ([], []), ([], [2])], [(59, 3)]) ∧
      Guarded step Proper (start (.new none "mail" : InMemoryStore Unit Unit Unit))
        overlappingWindows ∧
      Always step HandedOut (start (.new none "mail" : InMemoryStore Unit Unit Unit))
        overlappingWindows :=
  ⟨by decide +kernel, by decide +kernel,
    handedOut_of_proper (.new none "mail") overlappingWindows (by decide +kernel)⟩

end DelayedRun

end Kiomq
