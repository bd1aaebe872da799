import Kiomq.Interleavings.DequeCalls

/-!
# Pops that fail

A pop that finds no entry returns nothing, and so does a pop whose entry another thread has
removed since. The threads of a deque are observed here: for every pop, and for every `pause`,
which pops from one list and pushes to the other until a pop fails, it is noted whether the deque
has been empty since the call began.
-/

namespace Kiomq

open Foundations

variable {α : Type*}

namespace DequeCalls

theorem entryAt_eq_none {s : DequeCalls α} {side : DequeEnd} (h : s.entryAt side = none) :
    s.data.entries = [] := by
  cases side with
  | front => exact List.head?_eq_none_iff.mp h
  | back => exact List.getLast?_eq_none_iff.mp h

theorem get?_of_entryAt {s : DequeCalls α} {side : DequeEnd} {e : ℤ × α}
    (h : s.entryAt side = some e) : s.data.get? e.1 = some e.2 := by
  rw [OrderedMap.get?_eq_some_iff]
  cases side with
  | front => exact List.mem_of_mem_head? h
  | back => exact List.mem_of_mem_getLast? h

/-! ### What a step of a call does -/

theorem takeIndex_cases {s t : DequeCalls α} {i : ℕ} {side : DequeEnd} {value : α}
    (h : s.step (.takeIndex i side value) = some t) :
    t.data = s.data ∧ ∃ key, t.threads = s.threads.set i (.pushing key value) := by
  simp only [step] at h
  split at h
  · obtain rfl := Option.some.inj h
    cases side <;> exact ⟨rfl, _, rfl⟩
  · cases h

theorem insert_cases {s t : DequeCalls α} {i : ℕ} (h : s.step (.insert i) = some t) :
    ∃ key value, t.data = s.data.insert key value ∧ t.threads = s.threads.set i .idle := by
  simp only [step] at h
  split at h
  · obtain rfl := Option.some.inj h
    exact ⟨_, _, rfl, rfl⟩
  · cases h

theorem look_cases {s t : DequeCalls α} {i : ℕ} {side : DequeEnd}
    (h : s.step (.look i side) = some t) :
    s.threads[i]? = some .idle ∧ (s.entryAt side = none ∧ t = s ∨
      ∃ e, s.entryAt side = some e ∧ t = s.setThread i (.popping e.1)) := by
  simp only [step] at h
  split at h
  · rename_i hi
    refine ⟨hi, ?_⟩
    split at h
    · rename_i e he
      exact Or.inr ⟨e, he, (Option.some.inj h).symm⟩
    · rename_i he
      exact Or.inl ⟨he, (Option.some.inj h).symm⟩
  · cases h

theorem remove_cases {s t : DequeCalls α} {i : ℕ} {key : ℤ}
    (hi : s.threads[i]? = some (.popping key)) (h : s.step (.remove i) = some t) :
    t.threads = s.threads.set i .idle ∧
      t.data = if (s.data.get? key).isSome then s.data.remove key else s.data := by
  simp only [step, hi] at h
  cases hkey : s.data.get? key with
  | none =>
    simp only [hkey] at h
    obtain rfl := Option.some.inj h
    exact ⟨rfl, rfl⟩
  | some value =>
    simp only [hkey] at h
    obtain rfl := Option.some.inj h
    exact ⟨rfl, rfl⟩

end DequeCalls

/-- The thread is in a pop that has seen the key. -/
def DequeThread.sees (key : ℤ) : DequeThread α → Bool
  | .popping k => k = key
  | _ => false

/-- The calls that a thread is in: a pop, a `pause`, or both; and whether the deque has been
empty at some instant since each of them began. `hand` is what a `pause` has popped and not yet
begun to push. -/
structure PopCaller (α : Type*) where
  pop : Option Bool
  pause : Option Bool
  hand : Option α

namespace PopCaller

def away : PopCaller α := ⟨none, none, none⟩

def noteEmpty (c : PopCaller α) : PopCaller α :=
  { c with pop := c.pop.map fun _ => true, pause := c.pause.map fun _ => true }

/-- The deque has been empty since the pop began, and since the `pause` began if there is one. -/
def sawEmpty (c : PopCaller α) : Bool := c.pop == some true && c.pause != some false

end PopCaller

/-- The calls on the list that `pause` empties, those on the list that it fills, and what the
threads have seen of the first one. -/
structure PopRun (α : Type*) where
  source : DequeCalls α
  target : DequeCalls α
  callers : List (PopCaller α)

inductive PopStep (α : Type*)
  | push (thread : ℕ) (side : DequeEnd) (value : α)
  | insert (thread : ℕ)
  | start (thread : ℕ)
  | look (thread : ℕ) (side : DequeEnd)
  | remove (thread : ℕ)
  | startPause (thread : ℕ)
  | move (thread : ℕ)
  | place (thread : ℕ)

namespace PopRun

def isEmpty (s : PopRun α) : Bool := s.source.data.entries.isEmpty

def setCaller (s : PopRun α) (i : ℕ) (c : PopCaller α) : PopRun α :=
  { s with callers := s.callers.set i c }

def observe (s : PopRun α) : PopRun α :=
  if s.isEmpty then { s with callers := s.callers.map PopCaller.noteEmpty } else s

/-- A pop of a `pause` is a `pop_front`. When it returns a value, `pause` pushes that to the back
of the target; when it returns nothing, `pause` is over. -/
def step (s : PopRun α) : PopStep α → Option (PopRun α)
  | .push i side value =>
    match s.callers[i]? with
    | some ⟨none, none, none⟩ =>
      (s.source.step (.takeIndex i side value)).map fun source => { s with source }
    | _ => none
  | .insert i => (s.source.step (.insert i)).map fun source => { s with source }
  | .start i =>
    match s.callers[i]?, s.source.threads[i]?, s.target.threads[i]? with
    | some ⟨none, pause, none⟩, some .idle, some .idle =>
      some (s.setCaller i ⟨some s.isEmpty, pause, none⟩)
    | _, _, _ => none
  | .look i side =>
    match s.callers[i]? with
    | some ⟨some _, pause, _⟩ =>
      if pause.isSome ∧ side ≠ .front then none
      else (s.source.step (.look i side)).map fun source =>
        if (s.source.entryAt side).isSome then { s with source }
        else { s with source }.setCaller i .away
    | _ => none
  | .remove i =>
    match s.callers[i]?, s.source.threads[i]? with
    | some c, some (.popping key) =>
      (s.source.step (.remove i)).map fun source =>
        match s.source.data.get? key with
        | some value =>
          ({ s with source }.setCaller i ⟨none, c.pause, c.pause.map fun _ => value⟩).observe
        | none => { s with source }.setCaller i .away
    | _, _ => none
  | .startPause i =>
    match s.callers[i]?, s.source.threads[i]? with
    | some ⟨none, none, none⟩, some .idle => some (s.setCaller i ⟨none, some s.isEmpty, none⟩)
    | _, _ => none
  | .move i =>
    match s.callers[i]? with
    | some ⟨none, some empty, some value⟩ =>
      (s.target.step (.takeIndex i .back value)).map fun target =>
        { s with target }.setCaller i ⟨none, some empty, none⟩
    | _ => none
  | .place i => (s.target.step (.insert i)).map fun target => { s with target }

/-- The thread whose pop returns nothing in this step. -/
def failing (s : PopRun α) : PopStep α → Option ℕ
  | .look i side => if (s.source.entryAt side).isNone then some i else none
  | .remove i =>
    match s.source.threads[i]? with
    | some (.popping key) => if (s.source.data.get? key).isNone then some i else none
    | _ => none
  | _ => none

/-- A pop that returns nothing has seen the deque empty; so has the `pause` that it ends. -/
def FailsOnEmpty (s : PopRun α) (a : PopStep α) : Prop :=
  (s.step a).isSome = true →
    (s.failing a).all (fun i => (s.callers[i]?).any PopCaller.sawEmpty) = true

instance (s : PopRun α) (a : PopStep α) : Decidable (s.FailsOnEmpty a) :=
  inferInstanceAs (Decidable (_ → _))

/-- An entry is removed while no other pop has seen it, or as the last one. -/
def unshared (s : PopRun α) : PopStep α → Bool
  | .remove i =>
    match s.source.threads[i]? with
    | some (.popping key) =>
      (s.source.data.get? key).isNone || s.source.threads.countP (DequeThread.sees key) ≤ 1 ||
        (s.source.data.remove key).entries.isEmpty
    | _ => true
  | _ => true

def RemovesUnshared (s : PopRun α) (a : PopStep α) : Prop := s.unshared a = true

instance (s : PopRun α) (a : PopStep α) : Decidable (s.RemovesUnshared a) :=
  inferInstanceAs (Decidable (_ = true))

theorem RemovesUnshared.cases {s : PopRun α} {i : ℕ} {key : ℤ} {value : α}
    (h : s.RemovesUnshared (.remove i)) (hi : s.source.threads[i]? = some (.popping key))
    (hkey : s.source.data.get? key = some value) :
    (∀ j : ℕ, j ≠ i → s.source.threads[j]? ≠ some (.popping key)) ∨
      (s.source.data.remove key).entries = [] := by
  simp only [RemovesUnshared, unshared, hi, hkey, Option.isNone_some, Bool.false_or,
    Bool.or_eq_true, decide_eq_true_eq, List.isEmpty_iff] at h
  refine h.imp_left fun hcount j hne hj => ?_
  have htwo := two_le_countP (p := DequeThread.sees key) hne hj hi (by simp [DequeThread.sees])
    (by simp [DequeThread.sees])
  omega

/-- A pop has seen an entry that is there, or has seen the deque empty. What a pop has seen since
it began, its `pause` has. -/
structure Inv (s : PopRun α) : Prop where
  seen : ∀ (i : ℕ) key, s.source.threads[i]? = some (.popping key) →
    ∃ c b, s.callers[i]? = some c ∧ PopCaller.pop c = some b ∧
      (b = true ∨ (s.source.data.get? key).isSome = true)
  within : ∀ c ∈ s.callers, c.pop = some true → c.pause ≠ some false
  empty : s.source.data.entries = [] → ∀ c ∈ s.callers, c.pop ≠ some false ∧ c.pause ≠ some false

theorem Inv.ofSource {s : PopRun α} (h : s.Inv) {source : DequeCalls α}
    (hthreads : ∀ (i : ℕ) key, source.threads[i]? = some (.popping key) →
      s.source.threads[i]? = some (.popping key))
    (hdata : ∀ key, (s.source.data.get? key).isSome = true → (source.data.get? key).isSome = true)
    (hempty : source.data.entries = [] → s.source.data.entries = []) :
    { s with source : PopRun α }.Inv := by
  refine ⟨fun i key hi => ?_, h.within, fun hnil => h.empty (hempty hnil)⟩
  obtain ⟨c, b, hc, hb, hseen⟩ := h.seen i key (hthreads i key hi)
  exact ⟨c, b, hc, hb, hseen.imp_right (hdata key)⟩

theorem Inv.setCaller {s : PopRun α} (h : s.Inv) {i : ℕ} {c : PopCaller α}
    (hi : ∀ key, s.source.threads[i]? ≠ some (.popping key))
    (hwithin : c.pop = some true → c.pause ≠ some false)
    (hempty : s.source.data.entries = [] → c.pop ≠ some false ∧ c.pause ≠ some false) :
    (s.setCaller i c).Inv := by
  refine ⟨fun j key hj => ?_, forall_mem_set h.within hwithin,
    fun hnil => forall_mem_set (h.empty hnil) (hempty hnil)⟩
  have hne : j ≠ i := fun heq => hi key (heq ▸ hj)
  obtain ⟨c', b, hc', hb, hseen⟩ := h.seen j key hj
  refine ⟨c', b, ?_, hb, hseen⟩
  simpa [PopRun.setCaller, List.getElem?_set_ne (Ne.symm hne)] using hc'

theorem getElem?_set_popping {threads : List (DequeThread α)} {i j : ℕ} {next : DequeThread α}
    {key : ℤ} (h : (threads.set i next)[j]? = some (.popping key))
    (hnext : next ≠ .popping key) : j ≠ i ∧ threads[j]? = some (.popping key) := by
  rcases getElem?_set_cases h with ⟨-, heq⟩ | hother
  · exact absurd heq.symm hnext
  · exact hother

theorem isSome_get?_insert {m : OrderedMap ℤ α} {key : ℤ} (k : ℤ) (v : α)
    (h : (m.get? key).isSome = true) : ((m.insert k v).get? key).isSome = true := by
  rw [OrderedMap.get?_insert]
  split_ifs
  · rfl
  · exact h

theorem insert_entries_ne_nil (m : OrderedMap ℤ α) (k : ℤ) (v : α) :
    (m.insert k v).entries ≠ [] :=
  List.ne_nil_of_mem ((m.mem_insert k v (k, v)).mpr (Or.inl rfl))

theorem Inv.removed {s : PopRun α} (h : s.Inv) {i : ℕ} {key : ℤ} {source : DequeCalls α}
    {c : PopCaller α} (hthreads : source.threads = s.source.threads.set i .idle)
    (hdata : source.data = s.source.data.remove key) (hpop : c.pop = none)
    (hunshared : (∀ j, j ≠ i → s.source.threads[j]? ≠ some (.popping key)) ∨
      (s.source.data.remove key).entries = []) :
    ({ s with source }.setCaller i c).observe.Inv := by
  have hothers : ∀ (j : ℕ) key', source.threads[j]? = some (.popping key') →
      j ≠ i ∧ ∃ c' b, (s.callers.set i c)[j]? = some c' ∧ PopCaller.pop c' = some b ∧
        (b = true ∨ (s.source.data.get? key').isSome = true) := by
    intro j key' hj
    rw [hthreads] at hj
    obtain ⟨hne, hj⟩ := getElem?_set_popping hj (by simp)
    obtain ⟨c', b, hc', hb, hseen⟩ := h.seen j key' hj
    exact ⟨hne, c', b, by rwa [List.getElem?_set_ne (Ne.symm hne)], hb, hseen⟩
  unfold observe isEmpty
  split_ifs with hnil
  · -- The last entry is gone, and every caller notes it.
    refine ⟨fun j key' hj => ?_, ?_, fun _ => ?_⟩
    · obtain ⟨-, c', b, hc', hb, -⟩ := hothers j key' hj
      refine ⟨c'.noteEmpty, true, ?_, by simp [PopCaller.noteEmpty, hb], Or.inl rfl⟩
      simp only [PopRun.setCaller, List.getElem?_map, hc', Option.map_some]
    · rintro _ hmem -
      obtain ⟨c', -, rfl⟩ := List.mem_map.mp hmem
      cases hpause : c'.pause <;> simp [PopCaller.noteEmpty, hpause]
    · rintro _ hmem
      obtain ⟨c', -, rfl⟩ := List.mem_map.mp hmem
      constructor
      · cases hpop' : c'.pop <;> simp [PopCaller.noteEmpty, hpop']
      · cases hpause : c'.pause <;> simp [PopCaller.noteEmpty, hpause]
  · have hne : (s.source.data.remove key).entries ≠ [] := by
      simpa [PopRun.setCaller, hdata] using hnil
    refine ⟨fun j key' hj => ?_, ?_, fun hempty => ?_⟩
    · obtain ⟨hji, c', b, hc', hb, hseen⟩ := hothers j key' hj
      refine ⟨c', b, hc', hb, hseen.imp_right fun hsome => ?_⟩
      have hkey : key' ≠ key := by
        rintro rfl
        rcases hunshared with halone | hlast
        · simp only [PopRun.setCaller, hthreads] at hj
          exact halone j hji (getElem?_set_popping hj (by simp)).2
        · exact hne hlast
      simpa [PopRun.setCaller, hdata, OrderedMap.get?_remove, hkey] using hsome
    · exact forall_mem_set h.within (by simp [hpop])
    · exact absurd (hdata ▸ hempty) hne

/-- A pop that looks up an entry has seen one that is there; one that finds none is over. -/
theorem Inv.look {s t : PopRun α} (h : s.Inv) {i : ℕ} {side : DequeEnd}
    (hstep : s.step (.look i side) = some t) : t.Inv := by
  simp only [step] at hstep
  split at hstep
  · rename_i empty pause hand hi
    split at hstep
    · cases hstep
    · obtain ⟨source, hsource, rfl⟩ := Option.map_eq_some_iff.mp hstep
      obtain ⟨hidle, ⟨hnone, rfl⟩ | ⟨e, he, rfl⟩⟩ := DequeCalls.look_cases hsource
      · rw [hnone, Option.isSome_none, if_neg Bool.false_ne_true]
        exact h.setCaller (by simp [hidle]) (by simp [PopCaller.away]) (by simp [PopCaller.away])
      · rw [he, Option.isSome_some, if_pos rfl]
        refine ⟨fun j key hj => ?_, h.within, h.empty⟩
        rcases getElem?_set_cases hj with ⟨rfl, heq⟩ | ⟨hne, hj⟩
        · obtain rfl := DequeThread.popping.inj heq
          refine ⟨_, empty, hi, rfl, Or.inr ?_⟩
          rw [DequeCalls.setThread, DequeCalls.get?_of_entryAt he]
          rfl
        · exact h.seen j key hj
  · cases hstep

theorem Inv.remove {s t : PopRun α} (h : s.Inv) {i : ℕ} (hunshared : s.RemovesUnshared (.remove i))
    (hstep : s.step (.remove i) = some t) : t.Inv := by
  simp only [step] at hstep
  split at hstep
  · rename_i c key hc hi
    obtain ⟨source, hsource, rfl⟩ := Option.map_eq_some_iff.mp hstep
    obtain ⟨hthreads, hdata⟩ := DequeCalls.remove_cases hi hsource
    cases hkey : s.source.data.get? key with
    | none =>
      rw [hkey, Option.isSome_none, if_neg Bool.false_ne_true] at hdata
      have hsame : { s with source : PopRun α }.Inv := by
        refine h.ofSource (fun j key' hj => ?_) (by simp [hdata]) (by simp [hdata])
        rw [hthreads] at hj
        exact (getElem?_set_popping hj (by simp)).2
      refine hsame.setCaller (fun key' hpopping => ?_) (by simp [PopCaller.away])
        (by simp [PopCaller.away])
      rw [hthreads] at hpopping
      exact (getElem?_set_popping hpopping (by simp)).1 rfl
    | some value =>
      rw [hkey, Option.isSome_some, if_pos rfl] at hdata
      exact h.removed hthreads hdata rfl (hunshared.cases hi hkey)
  · cases hstep

theorem step_inv (s : PopRun α) (a : PopStep α) (t : PopRun α) (h : s.Inv)
    (hunshared : s.RemovesUnshared a) (hstep : s.step a = some t) : t.Inv := by
  cases a with
  | push i side value =>
    simp only [step] at hstep
    split at hstep
    · obtain ⟨source, hsource, rfl⟩ := Option.map_eq_some_iff.mp hstep
      obtain ⟨hdata, key, hthreads⟩ := DequeCalls.takeIndex_cases hsource
      refine h.ofSource (fun j key' hj => ?_) (by simp [hdata]) (by simp [hdata])
      rw [hthreads] at hj
      exact (getElem?_set_popping hj (by simp)).2
    · cases hstep
  | insert i =>
    obtain ⟨source, hsource, rfl⟩ := Option.map_eq_some_iff.mp hstep
    obtain ⟨key, value, hdata, hthreads⟩ := DequeCalls.insert_cases hsource
    refine h.ofSource (fun j key' hj => ?_) (fun key' hsome => ?_) (fun hnil => ?_)
    · rw [hthreads] at hj
      exact (getElem?_set_popping hj (by simp)).2
    · rw [hdata]
      exact isSome_get?_insert key value hsome
    · rw [hdata] at hnil
      exact absurd hnil (insert_entries_ne_nil _ key value)
  | start i =>
    simp only [step] at hstep
    split at hstep
    · rename_i pause hi hidle htarget
      obtain rfl := Option.some.inj hstep
      have hpause : s.source.data.entries = [] → pause ≠ some false :=
        fun hnil => (h.empty hnil _ (List.mem_of_getElem? hi)).2
      refine h.setCaller (by simp [hidle]) (fun htrue => hpause ?_) (fun hnil => ⟨?_, hpause hnil⟩)
      · simpa [isEmpty] using htrue
      · simp [isEmpty, hnil]
    · cases hstep
  | look i side => exact h.look hstep
  | remove i => exact h.remove hunshared hstep
  | startPause i =>
    simp only [step] at hstep
    split at hstep
    · rename_i hi hidle
      obtain rfl := Option.some.inj hstep
      refine h.setCaller (by simp [hidle]) (by simp) (fun hnil => ⟨by simp, ?_⟩)
      simp [isEmpty, hnil]
    · cases hstep
  | move i =>
    simp only [step] at hstep
    split at hstep
    · rename_i empty value hi
      obtain ⟨target, -, rfl⟩ := Option.map_eq_some_iff.mp hstep
      have htarget : { s with target : PopRun α }.Inv := ⟨h.seen, h.within, h.empty⟩
      refine htarget.setCaller (fun key hpopping => ?_) (by simp) (fun hnil => ⟨by simp, ?_⟩)
      · obtain ⟨c, b, hc, hb, -⟩ := h.seen i key hpopping
        rw [hi] at hc
        obtain rfl := Option.some.inj hc
        cases hb
      · exact (h.empty hnil _ (List.mem_of_getElem? hi)).2
    · cases hstep
  | place i =>
    obtain ⟨target, -, rfl⟩ := Option.map_eq_some_iff.mp hstep
    exact ⟨h.seen, h.within, h.empty⟩

theorem Inv.failsOnEmpty {s : PopRun α} (h : s.Inv) (a : PopStep α) : s.FailsOnEmpty a := by
  intro henabled
  cases a with
  | look i side =>
    simp only [failing]
    split_ifs with hnone
    · obtain ⟨t, ht⟩ := Option.isSome_iff_exists.mp henabled
      simp only [step] at ht
      split at ht
      · rename_i empty pause hand hi
        have hnil := DequeCalls.entryAt_eq_none (Option.isNone_iff_eq_none.mp hnone)
        obtain ⟨hpop, hpause⟩ := h.empty hnil _ (List.mem_of_getElem? hi)
        rw [Option.all_some, hi, Option.any_some]
        cases empty with
        | false => exact absurd rfl hpop
        | true => simpa [PopCaller.sawEmpty] using hpause
      · cases ht
    · rfl
  | remove i =>
    simp only [failing]
    split
    · rename_i key hi
      split_ifs with hnone
      · obtain ⟨c, b, hc, hb, hseen⟩ := h.seen i key hi
        have htrue : c.pop = some true := by
          rcases hseen with rfl | hsome
          · exact hb
          · rw [Option.isNone_iff_eq_none.mp hnone] at hsome
            cases hsome
        have hpause := h.within c (List.mem_of_getElem? hc) htrue
        rw [Option.all_some, hc, Option.any_some]
        simpa [PopCaller.sawEmpty, htrue] using hpause
      · rfl
    · rfl
  | _ => rfl

def init (d : ConcurrentDeque α) (threads : ℕ) : PopRun α where
  source := { DequeCalls.init threads with
    data := d.data, headIdx := d.headIdx, tailIdx := d.tailIdx }
  target := DequeCalls.init threads
  callers := List.replicate threads .away

theorem init_inv (d : ConcurrentDeque α) (threads : ℕ) : (init d threads).Inv := by
  constructor
  · intro i key hi
    cases List.eq_of_mem_replicate (List.mem_of_getElem? hi)
  · intro c hc
    rw [List.eq_of_mem_replicate hc]
    simp [PopCaller.away]
  · intro _ c hc
    rw [List.eq_of_mem_replicate hc]
    simp [PopCaller.away]

/-- In every run in which no entry is removed that another pop has seen, unless it is the last
one, a pop fails only if the deque has been empty since it began, and `pause` stops only if the
list has been empty since it began. -/
theorem failed_pops_saw_empty (d : ConcurrentDeque α) (threads : ℕ) (steps : List (PopStep α))
    (h : Guarded step RemovesUnshared (init d threads) steps) :
    Guarded step FailsOnEmpty (init d threads) steps :=
  guarded_of_guarded step_inv (fun _ a hs _ => hs.failsOnEmpty a) (init_inv d threads) h

def twoWaiting : ConcurrentDeque ℕ := (ConcurrentDeque.new.pushBack 1).pushBack 2

/-- A `pause` moves the first id while a worker takes the last one, and then finds the list
empty. -/
def pauseBesidePop : List (PopStep ℕ) :=
  [.startPause 0, .start 1, .look 1 .back, .start 0, .look 0 .front, .remove 1, .remove 0,
    .move 0, .place 0, .start 0, .look 0 .front]

theorem pauseBesidePop_saw_empty :
    Guarded step RemovesUnshared (init twoWaiting 2) pauseBesidePop ∧
      (run step (init twoWaiting 2) pauseBesidePop).map
        (fun s => (s.target.data.values, s.callers.map PopCaller.pause)) =
        some ([1], [none, none]) ∧
      Guarded step FailsOnEmpty (init twoWaiting 2) pauseBesidePop := by
  have hunshared : Guarded step RemovesUnshared (init twoWaiting 2) pauseBesidePop := by
    decide +kernel
  exact ⟨hunshared, by decide +kernel, failed_pops_saw_empty twoWaiting 2 pauseBesidePop hunshared⟩

/-- A `pause` and a worker's pop see the same first id. The worker gets it, the pop of the
`pause` fails, and the `pause` stops while id 2 has been in the list all the time. -/
theorem pause_stops_early :
    let steps : List (PopStep ℕ) :=
      [.startPause 0, .start 0, .start 1, .look 0 .front, .look 1 .front, .remove 1, .remove 0]
    (run step (init twoWaiting 2) steps).map
        (fun s => (s.source.data.values, s.source.popped, s.callers.map PopCaller.pause)) =
        some ([2], [(1, 1)], [none, none]) ∧
      ¬ Guarded step FailsOnEmpty (init twoWaiting 2) steps := by
  constructor
  · decide +kernel
  · decide +kernel

end PopRun

end Kiomq
