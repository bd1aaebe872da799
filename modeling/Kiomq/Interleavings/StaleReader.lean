import Kiomq.Foundations.Runs
import Kiomq.Stores.TimedRuns

/-!
# Readers that evict by key

Any number of threads read a timed map, insert into it and purge it. A read looks up the entry
of a key, tests its deadline, and if that has passed removes the key; between these steps
another thread may have put a new entry under the key. A purge removes the entry that it has
tested, and nothing if that is no longer in the map. An insertion computes the deadline first,
and then replaces what is stored under the key.
-/

namespace Kiomq

open Foundations

variable {κ V : Type} [LinearOrder κ]

/-- Where a thread is: outside of a call, in `contains_key` after it has seen the key, in `get`
before and after the test of the deadline, in an insertion, or in a purge before and after the
test. A node is given by its number. -/
inductive TimedThread (κ V : Type)
  | idle
  | checked (key : κ)
  | looked (key : κ) (node : ℕ)
  | evicting (key : κ)
  | inserting (key : κ) (entry : ExpiryValue V)
  | visited (key : κ) (node : ℕ)
  | purging (key : κ) (node : ℕ)

/-- The map has a node under each key; `nodes` are all nodes that were ever inserted. -/
structure TimedCalls (κ V : Type) [LinearOrder κ] where
  inner : OrderedMap κ ℕ
  nodes : List (ExpiryValue V)
  disableExpiration : Bool
  now : ℕ
  threads : List (TimedThread κ V)
  /-- History: the node of the last insertion of each key that was not followed by a removal. -/
  latest : κ → Option ℕ

inductive TimedStep (κ V : Type)
  | containsKey (thread : ℕ) (key : κ)
  | get (thread : ℕ) (key : κ)
  | getChecked (thread : ℕ)
  | test (thread : ℕ)
  | evict (thread : ℕ)
  | create (thread : ℕ) (key : κ) (val : V) (timeout : Option ℕ)
  | insert (thread : ℕ)
  | visit (thread : ℕ) (key : κ)
  | testVisited (thread : ℕ)
  | purge (thread : ℕ)
  | remove (key : κ)
  | clear
  | tick (ms : ℕ)

namespace TimedCalls

def expired (s : TimedCalls κ V) (node : ℕ) : Bool :=
  s.nodes[node]?.any (ExpiryValue.isExpired · s.now)

def setThread (s : TimedCalls κ V) (i : ℕ) (thread : TimedThread κ V) : TimedCalls κ V :=
  { s with threads := s.threads.set i thread }

/-- The lookup of a read; without an entry the read is over. -/
def look (s : TimedCalls κ V) (key : κ) : TimedThread κ V :=
  match s.inner.get? key with
  | some node => .looked key node
  | none => .idle

/-- The entry of an insertion, with a deadline if there is a timeout and expiration is enabled. -/
def newEntry (s : TimedCalls κ V) (val : V) : Option ℕ → ExpiryValue V
  | none => .constant val
  | some timeout => if s.disableExpiration then .constant val else .expirable val (s.now + timeout)

/-- The insertion of a new node, which replaces the one under its key. -/
def insertNode (s : TimedCalls κ V) (key : κ) (entry : ExpiryValue V) : TimedCalls κ V :=
  { s with
    inner := s.inner.insert key s.nodes.length
    nodes := s.nodes ++ [entry]
    latest := fun k => if k = key then some s.nodes.length else s.latest k }

def step (s : TimedCalls κ V) : TimedStep κ V → Option (TimedCalls κ V)
  | .containsKey i key =>
    match s.threads[i]? with
    | some .idle => some (s.setThread i (if s.inner.containsKey key then .checked key else .idle))
    | _ => none
  | .get i key =>
    match s.threads[i]? with
    | some .idle => some (s.setThread i (s.look key))
    | _ => none
  | .getChecked i =>
    match s.threads[i]? with
    | some (.checked key) => some (s.setThread i (s.look key))
    | _ => none
  | .test i =>
    match s.threads[i]? with
    | some (.looked key node) =>
      some (s.setThread i (if s.expired node then .evicting key else .idle))
    | _ => none
  | .evict i =>
    match s.threads[i]? with
    | some (.evicting key) => some ({ s with inner := s.inner.remove key }.setThread i .idle)
    | _ => none
  | .create i key val timeout =>
    match s.threads[i]? with
    | some .idle => some (s.setThread i (.inserting key (s.newEntry val timeout)))
    | _ => none
  | .insert i =>
    match s.threads[i]? with
    | some (.inserting key entry) => some ((s.insertNode key entry).setThread i .idle)
    | _ => none
  | .visit i key =>
    match s.threads[i]?, s.inner.get? key with
    | some .idle, some node =>
      if s.disableExpiration then none else some (s.setThread i (.visited key node))
    | _, _ => none
  | .testVisited i =>
    match s.threads[i]? with
    | some (.visited key node) =>
      some (s.setThread i (if s.expired node then .purging key node else .idle))
    | _ => none
  | .purge i =>
    match s.threads[i]? with
    | some (.purging key node) =>
      let inner := if s.inner.get? key = some node then s.inner.remove key else s.inner
      some ({ s with inner }.setThread i .idle)
    | _ => none
  | .remove key =>
    some { s with
      inner := s.inner.remove key
      latest := fun k => if k = key then none else s.latest k }
  | .clear => some { s with inner := .empty, latest := fun _ => none }
  | .tick ms => some { s with now := s.now + ms }

/-- The entry of the last insertion of a key is in the map until its deadline passes. -/
def Kept (s : TimedCalls κ V) : Prop :=
  ∀ key node, s.latest key = some node → s.expired node = false → s.inner.get? key = some node

/-- A reader that removes a key does not find a newer entry there that has not expired. -/
def EvictsExpired (s : TimedCalls κ V) : TimedStep κ V → Prop
  | .evict i => ∀ key node, s.threads[i]? = some (.evicting key) →
    s.inner.get? key = some node → s.expired node = true
  | _ => True

/-- What is in the map was inserted last under its key. -/
def Within (s : TimedCalls κ V) : Prop :=
  ∀ key node, s.inner.get? key = some node → s.latest key = some node

/-- A purge only removes what it has found expired. -/
def PurgesExpired (s : TimedCalls κ V) : Prop :=
  ∀ key node, .purging key node ∈ s.threads → s.expired node = true

structure Inv (s : TimedCalls κ V) : Prop where
  kept : s.Kept
  within : s.Within
  purges : s.PurgesExpired

/-! ### What a step can do -/

/-- The effects of a step: a thread moves on, an entry is inserted, one is taken out by a reader
or by a purge, a key or all of them are removed, or time passes. -/
inductive Effect (s : TimedCalls κ V) : TimedStep κ V → TimedCalls κ V → Prop
  | move {a : TimedStep κ V} (i : ℕ) (next : TimedThread κ V)
      (h : ∀ key node, next = .purging key node → s.expired node = true) :
      Effect s a (s.setThread i next)
  | insert {a : TimedStep κ V} (i : ℕ) (key : κ) (entry : ExpiryValue V) :
      Effect s a ((s.insertNode key entry).setThread i .idle)
  | evict (i : ℕ) (key : κ) (h : s.threads[i]? = some (.evicting key)) :
      Effect s (.evict i) ({ s with inner := s.inner.remove key }.setThread i .idle)
  | purge {a : TimedStep κ V} (i : ℕ) (key : κ) (node : ℕ)
      (h : .purging key node ∈ s.threads) (hnode : s.inner.get? key = some node) :
      Effect s a ({ s with inner := s.inner.remove key }.setThread i .idle)
  | remove (key : κ) :
      Effect s (.remove key) { s with
        inner := s.inner.remove key
        latest := fun k => if k = key then none else s.latest k }
  | clear : Effect s .clear { s with inner := .empty, latest := fun _ => none }
  | tick (ms : ℕ) : Effect s (.tick ms) { s with now := s.now + ms }

theorem effect_of_step {s t : TimedCalls κ V} {a : TimedStep κ V} (h : s.step a = some t) :
    s.Effect a t := by
  have hlook (key key' : κ) (node : ℕ) : s.look key ≠ .purging key' node := by
    unfold look
    split <;> simp
  cases a with
  | containsKey i key =>
    simp only [step] at h
    split at h
    · obtain rfl := Option.some.inj h
      exact .move i _ (by split_ifs <;> simp)
    · cases h
  | get i key =>
    simp only [step] at h
    split at h
    · obtain rfl := Option.some.inj h
      exact .move i _ fun _ _ heq => absurd heq (hlook _ _ _)
    · cases h
  | getChecked i =>
    simp only [step] at h
    split at h
    · obtain rfl := Option.some.inj h
      exact .move i _ fun _ _ heq => absurd heq (hlook _ _ _)
    · cases h
  | test i =>
    simp only [step] at h
    split at h
    · obtain rfl := Option.some.inj h
      exact .move i _ (by split_ifs <;> simp)
    · cases h
  | evict i =>
    simp only [step] at h
    split at h
    · rename_i key hi
      obtain rfl := Option.some.inj h
      exact .evict i key hi
    · cases h
  | create i key val timeout =>
    simp only [step] at h
    split at h
    · obtain rfl := Option.some.inj h
      exact .move i _ (by simp)
    · cases h
  | insert i =>
    simp only [step] at h
    split at h
    · obtain rfl := Option.some.inj h
      exact .insert i _ _
    · cases h
  | visit i key =>
    simp only [step] at h
    split at h
    · split_ifs at h
      obtain rfl := Option.some.inj h
      exact .move i _ (by simp)
    · cases h
  | testVisited i =>
    simp only [step] at h
    split at h
    · obtain rfl := Option.some.inj h
      refine .move i _ fun key node heq => ?_
      split_ifs at heq with hexpired
      cases heq
      exact hexpired
    · cases h
  | purge i =>
    simp only [step] at h
    split at h
    · rename_i key node hi
      obtain rfl := Option.some.inj h
      split_ifs with hnode
      · exact .purge i key node (List.mem_of_getElem? hi) hnode
      · exact .move i .idle (by simp)
    · cases h
  | remove key =>
    obtain rfl := Option.some.inj h
    exact .remove key
  | clear =>
    obtain rfl := Option.some.inj h
    exact .clear
  | tick ms =>
    obtain rfl := Option.some.inj h
    exact .tick ms

/-! ### Invariants -/

theorem expired_insertNode {s : TimedCalls κ V} {node : ℕ} (h : s.expired node = true) (key : κ)
    (entry : ExpiryValue V) : (s.insertNode key entry).expired node = true := by
  unfold expired at h ⊢
  obtain ⟨found, hfound, hexpired⟩ := (Option.any_eq_true ..).mp h
  have hlt := (List.getElem?_eq_some_iff.mp hfound).1
  simp only [insertNode, List.getElem?_append_left hlt, hfound, Option.any_some]
  exact hexpired

theorem expired_later {s : TimedCalls κ V} {node : ℕ} (h : s.expired node = true) (ms : ℕ) :
    { s with now := s.now + ms : TimedCalls κ V }.expired node = true := by
  unfold expired at h ⊢
  obtain ⟨found, hfound, hexpired⟩ := (Option.any_eq_true ..).mp h
  rw [hfound, Option.any_some]
  exact found.isExpired_mono (Nat.le_add_right _ _) hexpired

theorem step_within (s : TimedCalls κ V) (a : TimedStep κ V) (t : TimedCalls κ V) (h : s.Within)
    (hstep : s.step a = some t) : t.Within := by
  have hremove (key key' : κ) (node : ℕ) (hget : (s.inner.remove key).get? key' = some node) :
      key' ≠ key ∧ s.latest key' = some node := by
    rw [OrderedMap.get?_remove] at hget
    split_ifs at hget with hkey
    exact ⟨hkey, h key' node hget⟩
  cases effect_of_step hstep with
  | move i next hnext => exact h
  | insert i key entry =>
    intro key' node hget
    simp only [setThread, insertNode, OrderedMap.get?_insert] at hget ⊢
    split_ifs at hget ⊢ with hkey
    · exact hget
    · exact h key' node hget
  | evict i key hi => exact fun key' node hget => (hremove key key' node hget).2
  | purge i key node hi hnode => exact fun key' node hget => (hremove key key' node hget).2
  | remove key =>
    intro key' node hget
    obtain ⟨hne, hlatest⟩ := hremove key key' node hget
    simpa [hne] using hlatest
  | clear => exact fun key node hget => by cases hget
  | tick ms => exact h

theorem step_purges (s : TimedCalls κ V) (a : TimedStep κ V) (t : TimedCalls κ V)
    (h : s.PurgesExpired) (hstep : s.step a = some t) : t.PurgesExpired := by
  have hset {i : ℕ} {next : TimedThread κ V} {key : κ} {node : ℕ}
      (hmem : .purging key node ∈ s.threads.set i next) (hnext : next ≠ .purging key node) :
      s.expired node = true := by
    rcases List.mem_or_eq_of_mem_set hmem with hmem | heq
    · exact h key node hmem
    · exact absurd heq.symm hnext
  cases effect_of_step hstep with
  | move i next hnext =>
    intro key node hmem
    rcases List.mem_or_eq_of_mem_set hmem with hmem | heq
    · exact h key node hmem
    · exact hnext key node heq.symm
  | insert i key entry =>
    exact fun key' node hmem => expired_insertNode (hset hmem (by simp)) key entry
  | evict i key hi => exact fun key' node hmem => hset hmem (by simp)
  | purge i key node hi hnode => exact fun key' node hmem => hset hmem (by simp)
  | remove key => exact h
  | clear => exact h
  | tick ms => exact fun key node hmem => expired_later (h key node hmem) ms

theorem Kept.removeExpired {s : TimedCalls κ V} (h : s.Kept) {key : κ}
    (hexpired : ∀ node, s.inner.get? key = some node → s.expired node = true) :
    { s with inner := s.inner.remove key : TimedCalls κ V }.Kept := by
  intro key' node hlatest hlive
  have hget := h key' node hlatest hlive
  simp only [OrderedMap.get?_remove]
  split_ifs with hkey
  · rw [hkey] at hget
    exact absurd (hlive.symm.trans (hexpired node hget)) Bool.false_ne_true
  · exact hget

theorem step_kept (s : TimedCalls κ V) (a : TimedStep κ V) (t : TimedCalls κ V) (h : s.Inv)
    (hevicts : s.EvictsExpired a) (hstep : s.step a = some t) : t.Kept := by
  cases effect_of_step hstep with
  | move i next hnext => exact h.kept
  | insert i key entry =>
    intro key' node hlatest hlive
    simp only [setThread, insertNode] at hlatest ⊢
    rw [OrderedMap.get?_insert]
    split_ifs at hlatest ⊢ with hkey
    · exact hlatest
    · refine h.kept key' node hlatest ?_
      by_contra hexpired
      have hlater := expired_insertNode (Bool.not_eq_false _ ▸ hexpired) key entry
      exact Bool.false_ne_true (hlive.symm.trans hlater)
  | evict i key hi => exact h.kept.removeExpired fun node => hevicts key node hi
  | purge i key node hi hnode =>
    refine h.kept.removeExpired fun node' hnode' => ?_
    obtain rfl := Option.some.inj (hnode.symm.trans hnode')
    exact h.purges key node hi
  | remove key =>
    intro key' node hlatest hlive
    simp only [OrderedMap.get?_remove] at hlatest ⊢
    split_ifs at hlatest ⊢ with hkey
    exact h.kept key' node hlatest hlive
  | clear => exact fun key node hlatest => by cases hlatest
  | tick ms =>
    intro key node hlatest hlive
    refine h.kept key node hlatest ?_
    by_contra hexpired
    have hlater := expired_later (Bool.not_eq_false _ ▸ hexpired) ms
    exact Bool.false_ne_true (hlive.symm.trans hlater)

theorem step_inv (s : TimedCalls κ V) (a : TimedStep κ V) (t : TimedCalls κ V) (h : s.Inv)
    (hevicts : s.EvictsExpired a) (hstep : s.step a = some t) : t.Inv :=
  ⟨step_kept s a t h hevicts hstep, step_within s a t h.within hstep,
    step_purges s a t h.purges hstep⟩

theorem step_evict {s : TimedCalls κ V} {i : ℕ} {key : κ}
    (h : s.threads[i]? = some (.evicting key)) :
    s.step (.evict i) = some ({ s with inner := s.inner.remove key }.setThread i .idle) := by
  simp only [step, h]

/-- A reader that removes a newer entry loses it. -/
theorem exists_not_kept (s : TimedCalls κ V) (a : TimedStep κ V) (hwithin : s.Within)
    (h : ¬ s.EvictsExpired a) : ∃ t, s.step a = some t ∧ ¬ t.Kept := by
  cases a with
  | evict i =>
    simp only [EvictsExpired] at h
    push Not at h
    obtain ⟨key, node, hi, hnode, hlive⟩ := h
    refine ⟨_, step_evict hi, ?_⟩
    intro hkept
    have hget := hkept key node (hwithin key node hnode) (Bool.not_eq_true _ ▸ hlive)
    simp [setThread, OrderedMap.get?_remove] at hget
  | _ => exact absurd trivial h

def init (threads now : ℕ) : TimedCalls κ V :=
  { inner := .empty, nodes := [], disableExpiration := false, now
    threads := List.replicate threads .idle, latest := fun _ => none }

theorem init_inv (threads now : ℕ) : (init threads now : TimedCalls κ V).Inv := by
  constructor
  · intro key node hlatest
    cases hlatest
  · intro key node hget
    cases hget
  · intro key node hmem
    cases List.eq_of_mem_replicate hmem

/-- Whatever the threads do, an entry stays until its deadline passes or it is replaced or
removed, just if no reader finds a newer entry when it removes a key. -/
theorem kept_iff_evicts_expired (threads now : ℕ) (steps : List (TimedStep κ V)) :
    Always step Kept (init threads now : TimedCalls κ V) steps ↔
      Guarded step EvictsExpired (init threads now) steps :=
  always_iff_guarded step_within step_inv (fun _ h => h.kept) exists_not_kept
    (init_inv threads now) (init_inv threads now).within steps

/-- The first thread reads an expired entry; before it removes the key the second thread inserts
a new entry. That is lost five milliseconds before its deadline. -/
theorem fresh_entry_lost :
    let steps : List (TimedStep ℕ ℕ) :=
      [.create 0 1 7 (some 5), .insert 0, .tick 5, .get 0 1, .test 0, .create 1 1 8 (some 5),
        .insert 1, .evict 0]
    (run step (init 2 0) steps).map (fun s => (s.latest 1, s.expired 1, s.inner.get? 1)) =
        some (some 1, false, none) ∧
      ¬ Always step Kept (init 2 0) steps := by
  constructor
  · decide +kernel
  · apply not_always_of_run fun s => s.latest 1 = some 1 ∧ s.expired 1 = false ∧
      s.inner.get? 1 = none
    · intro s hbad hkept
      obtain ⟨hlatest, hlive, hnone⟩ := of_decide_eq_true hbad
      rw [hkept 1 1 hlatest hlive] at hnone
      cases hnone
    · decide +kernel

/-! ### One call at a time -/

structure Holds (s : TimedCalls κ V) (m : TimedMap κ V) : Prop where
  stored : ∀ key node, s.inner.get? key = some node → node < s.nodes.length
  entry : ∀ key, (s.inner.get? key).bind (s.nodes[·]?) = m.inner.get? key
  flag : s.disableExpiration = m.disableExpiration

theorem Holds.get?_eq {s : TimedCalls κ V} {m : TimedMap κ V} (h : s.Holds m) {key : κ} {node : ℕ}
    (hnode : s.inner.get? key = some node) : m.inner.get? key = s.nodes[node]? := by
  rw [← h.entry key, hnode, Option.bind_some]

theorem Holds.setThread {s : TimedCalls κ V} {m : TimedMap κ V} (h : s.Holds m) (i : ℕ)
    (thread : TimedThread κ V) : (s.setThread i thread).Holds m :=
  ⟨h.stored, h.entry, h.flag⟩

theorem Holds.remove {s : TimedCalls κ V} {m : TimedMap κ V} (h : s.Holds m) (key : κ) :
    { s with inner := s.inner.remove key : TimedCalls κ V }.Holds (m.remove key) := by
  constructor
  · intro key' node hget
    simp only [OrderedMap.get?_remove] at hget
    split_ifs at hget
    exact h.stored key' node hget
  · intro key'
    simp only [OrderedMap.get?_remove, TimedMap.remove]
    split_ifs
    · rfl
    · exact h.entry key'
  · exact h.flag

theorem Holds.insertNode {s : TimedCalls κ V} {m m' : TimedMap κ V} (h : s.Holds m) (key : κ)
    {entry : ExpiryValue V} (hm : m'.inner = m.inner.insert key entry)
    (hflag : m'.disableExpiration = m.disableExpiration) : (s.insertNode key entry).Holds m' := by
  constructor
  · intro key' node hget
    simp only [TimedCalls.insertNode, OrderedMap.get?_insert, List.length_append,
      List.length_singleton] at hget ⊢
    split_ifs at hget with hkey
    · obtain rfl := Option.some.inj hget
      exact Nat.lt_succ_self _
    · exact (h.stored key' node hget).trans (Nat.lt_succ_self _)
  · intro key'
    simp only [TimedCalls.insertNode, hm, OrderedMap.get?_insert]
    split_ifs with hkey
    · simp
    · rw [← h.entry key']
      refine Option.bind_congr fun node hget => ?_
      exact List.getElem?_append_left (h.stored key' node hget)
  · exact h.flag.trans hflag.symm

theorem threads_setThread {s : TimedCalls κ V} {i : ℕ} (h : i < s.threads.length)
    (thread : TimedThread κ V) : (s.setThread i thread).threads[i]? = some thread := by
  simp [setThread, h]

theorem step_test {s : TimedCalls κ V} {i : ℕ} {key : κ} {node : ℕ}
    (h : s.threads[i]? = some (.looked key node)) :
    s.step (.test i) = some (s.setThread i (if s.expired node then .evicting key else .idle)) := by
  simp only [step, h]

theorem Holds.test_alone {s : TimedCalls κ V} {m : TimedMap κ V} (h : s.Holds m) {i : ℕ} {key : κ}
    {node : ℕ} (hi : s.threads[i]? = some (.looked key node)) :
    ∃ steps t, steps <+: [.test i, .evict i] ∧ run step s steps = some t ∧
      t.Holds (if s.expired node then m.remove key else m) ∧ t.now = s.now := by
  have hlt : i < s.threads.length := (List.getElem?_eq_some_iff.mp hi).1
  have htest := step_test hi
  split_ifs at htest ⊢
  · have hevict := step_evict (threads_setThread hlt (.evicting key))
    refine ⟨[.test i, .evict i], _, ⟨[], rfl⟩,
      run_cons.mpr ⟨_, htest, run_cons.mpr ⟨_, hevict, rfl⟩⟩, ?_, rfl⟩
    exact ((h.setThread i _).remove key).setThread i .idle
  · refine ⟨[.test i], _, ⟨_, rfl⟩, run_cons.mpr ⟨_, htest, rfl⟩, ?_, rfl⟩
    exact h.setThread i .idle

/-- The steps of a read with nothing in between are the read of the timed map. -/
theorem Holds.get_alone {s : TimedCalls κ V} {m : TimedMap κ V} (h : s.Holds m) {i : ℕ}
    (hi : s.threads[i]? = some .idle) (key : κ) :
    ∃ steps t, steps <+: [.get i key, .test i, .evict i] ∧ run step s steps = some t ∧
      t.Holds (m.get key s.now).2 ∧ t.now = s.now := by
  have hlt : i < s.threads.length := (List.getElem?_eq_some_iff.mp hi).1
  have hget : s.step (.get i key) = some (s.setThread i (s.look key)) := by simp only [step, hi]
  rw [TimedMap.get_snd]
  cases hnode : s.inner.get? key with
  | none =>
    refine ⟨[.get i key], _, ⟨_, rfl⟩, run_cons.mpr ⟨_, hget, rfl⟩, ?_, rfl⟩
    rw [← h.entry key, hnode]
    exact h.setThread i _
  | some node =>
    simp only [look, hnode] at hget
    rw [h.get?_eq hnode]
    obtain ⟨steps, t, hsteps, hrun, hholds, hnow⟩ :=
      (h.setThread i (.looked key node)).test_alone (threads_setThread hlt _)
    exact ⟨.get i key :: steps, t, List.cons_prefix_cons.mpr ⟨rfl, hsteps⟩,
      run_cons.mpr ⟨_, hget, hrun⟩, hholds, hnow⟩

theorem Holds.insert_alone {s : TimedCalls κ V} {m : TimedMap κ V} (h : s.Holds m) {i : ℕ}
    (hi : s.threads[i]? = some .idle) (key : κ) (val : V) (timeout : ℕ) :
    ∃ t, run step s [.create i key val (some timeout), .insert i] = some t ∧
      t.Holds (m.insertExpirable key val timeout s.now) ∧ t.now = s.now := by
  have hlt : i < s.threads.length := (List.getElem?_eq_some_iff.mp hi).1
  have hcreate : s.step (.create i key val (some timeout)) =
      some (s.setThread i (.inserting key (s.newEntry val (some timeout)))) := by
    simp only [step, hi]
  have hinsert : (s.setThread i (.inserting key (s.newEntry val (some timeout)))).step (.insert i) =
      some (((s.setThread i (.inserting key (s.newEntry val (some timeout)))).insertNode key
        (s.newEntry val (some timeout))).setThread i .idle) := by
    simp only [step, threads_setThread hlt]
  refine ⟨_, run_cons.mpr ⟨_, hcreate, run_cons.mpr ⟨_, hinsert, rfl⟩⟩, ?_, rfl⟩
  refine ((h.setThread i _).insertNode key ?_ ?_).setThread i .idle
  · simp only [newEntry, h.flag, TimedMap.insertExpirable, TimedMap.insertConstant]
    split_ifs <;> rfl
  · exact m.disableExpiration_insertExpirable key val timeout s.now

end TimedCalls

end Kiomq
