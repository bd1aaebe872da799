import Kiomq.Foundations.Expiring
import Kiomq.Foundations.Runs
import Kiomq.Stores.TimedMap

/-!
# Runs of a timed map

A timed map evicts expired entries at the most different moments: a read evicts the entry it
finds, an iteration and a purge all they come across. For a sequence of operations under a clock
that never goes back, the map is compared with one from which nothing is ever evicted and whose
entries are only judged by their deadlines. While expiration is enabled, the two answer
alike. While it is disabled, entries are to stay visible; the deadlines of the entries and the
operations of the run decide whether they do.
-/

namespace Kiomq

open Foundations

variable {κ V : Type} [LinearOrder κ]

namespace ExpiryValue

def timed : ExpiryValue V → Timed ℕ V
  | constant value => ⟨value, ⊤⟩
  | expirable value expiresAt => ⟨value, WithTop.some expiresAt⟩

theorem timed_value (e : ExpiryValue V) : e.timed.value = e.get := by cases e <;> rfl

theorem isExpired_iff (e : ExpiryValue V) (now : ℕ) :
    e.isExpired now = true ↔ e.timed.deadline ≤ WithTop.some now := by
  cases e with
  | constant value => simp [isExpired, timed]
  | expirable value expiresAt => simp [isExpired, timed]

theorem isExpired_expirable (value : V) (expiresAt now : ℕ) :
    (expirable value expiresAt).isExpired now = false ↔ now < expiresAt := by
  simp [isExpired]

theorem isExpired_mono (e : ExpiryValue V) {now later : ℕ} (hle : now ≤ later)
    (h : e.isExpired now = true) : e.isExpired later = true := by
  rw [isExpired_iff] at h ⊢
  exact h.trans (WithTop.coe_le_coe.mpr hle)

theorem not_isExpired_of_le (e : ExpiryValue V) {now later : ℕ} (hle : now ≤ later)
    (h : e.isExpired later = false) : e.isExpired now = false := by
  by_contra hexpired
  rw [Bool.not_eq_false] at hexpired
  rw [e.isExpired_mono hle hexpired] at h
  cases h

end ExpiryValue

namespace TimedMap

def content (m : TimedMap κ V) : ExpiringMap ℕ κ V :=
  fun key => (m.inner.get? key).map ExpiryValue.timed

theorem visible_content (m : TimedMap κ V) (now : ℕ) (key : κ) :
    m.content.visible now key =
      (m.inner.get? key).bind fun found =>
        if found.isExpired now then none else some found.get := by
  unfold ExpiringMap.visible content
  cases m.inner.get? key with
  | none => rfl
  | some found =>
    rw [Option.map_some, Option.bind_some, Option.bind_some, found.timed_value]
    by_cases h : found.isExpired now = true
    · rw [if_pos h, if_neg ((found.isExpired_iff now).mp h).not_gt]
    · rw [if_neg h, if_pos (lt_of_not_ge fun hle => h ((found.isExpired_iff now).mpr hle))]

theorem visible_content_eq_some_iff (m : TimedMap κ V) (now : ℕ) (key : κ) (val : V) :
    m.content.visible now key = some val ↔ ∃ found, m.inner.get? key = some found ∧
      found.isExpired now = false ∧ found.get = val := by
  rw [visible_content, Option.bind_eq_some_iff]
  refine exists_congr fun found => and_congr_right fun _ => ?_
  cases h : found.isExpired now <;> simp

theorem get_fst (m : TimedMap κ V) (key : κ) (now : ℕ) :
    (m.get key now).1 = m.content.visible now key := by
  rw [visible_content, get]
  cases m.inner.get? key with
  | none => rfl
  | some found => cases h : found.isExpired now <;> simp [h]

theorem get_snd (m : TimedMap κ V) (key : κ) (now : ℕ) :
    (m.get key now).2 =
      if (m.inner.get? key).any (ExpiryValue.isExpired · now) then m.remove key else m := by
  unfold get
  cases m.inner.get? key with
  | none => rfl
  | some found => cases h : found.isExpired now <;> simp [h]

@[simp] theorem disableExpiration_get (m : TimedMap κ V) (key : κ) (now : ℕ) :
    (m.get key now).2.disableExpiration = m.disableExpiration := by
  rw [get_snd]
  split_ifs <;> rfl

theorem containsKey_snd (m : TimedMap κ V) (key : κ) (now : ℕ) :
    (m.containsKey key now).2 = (m.get key now).2 := by
  unfold containsKey
  split_ifs with h
  · rfl
  · rw [OrderedMap.containsKey_eq, Bool.not_eq_true, Option.isSome_eq_false_iff,
      Option.isNone_iff_eq_none] at h
    simp only [get, h]

theorem live_eq_visible (m : TimedMap κ V) (key : κ) (now : ℕ) :
    m.live key now = (m.content.visible now key).isSome := by
  rw [visible_content, live]
  cases m.inner.get? key with
  | none => rfl
  | some found => cases h : found.isExpired now <;> simp [h]

theorem content_insertConstant (m : TimedMap κ V) (key : κ) (val : V) :
    (m.insertConstant key val).content = m.content.insert key val ⊤ := by
  funext key'
  simp only [content, insertConstant, OrderedMap.get?_insert, ExpiringMap.insert]
  split_ifs <;> rfl

theorem content_insertExpirable {m : TimedMap κ V} (h : m.disableExpiration = false) (key : κ)
    (val : V) (timeout now : ℕ) : (m.insertExpirable key val timeout now).content =
      m.content.insert key val (WithTop.some (now + timeout)) := by
  funext key'
  simp only [content, get?_inner_insertExpirable, h, Bool.false_eq_true, if_false,
    ExpiringMap.insert]
  split_ifs <;> rfl

theorem content_remove (m : TimedMap κ V) (key : κ) :
    (m.remove key).content = m.content.erase key := by
  funext key'
  simp only [content, remove, OrderedMap.get?_remove, ExpiringMap.erase]
  split_ifs <;> rfl

/-! ### What the readers evict -/

theorem evicted_get (m : TimedMap κ V) (key : κ) (now : ℕ) :
    ExpiringMap.Evicted now m.content (m.get key now).2.content := by
  intro key'
  rw [get_snd]
  split_ifs with hexpired
  · rw [content_remove, ExpiringMap.erase]
    split_ifs with hkey
    · right
      refine ⟨rfl, fun e he => ?_⟩
      obtain ⟨found, hfound, rfl⟩ := Option.map_eq_some_iff.mp he
      rw [← hkey, hfound, Option.any_some] at hexpired
      exact (found.isExpired_iff now).mp hexpired
    · exact Or.inl rfl
  · exact Or.inl rfl

theorem evicted_unexpired (m : TimedMap κ V) {reading : κ → ℕ} {latest : ℕ}
    (h : ∀ key, reading key ≤ latest) :
    ExpiringMap.Evicted latest m.content
      { m with inner := m.unexpired reading : TimedMap κ V }.content := by
  intro key
  simp only [content, get?_unexpired]
  cases hfound : m.inner.get? key with
  | none => exact Or.inl rfl
  | some found =>
    by_cases hexpired : found.isExpired (reading key) = true
    · right
      refine ⟨by simp [hexpired], ?_⟩
      rintro e he
      obtain rfl := Option.some.inj he
      exact (found.isExpired_iff latest).mp (found.isExpired_mono (h key) hexpired)
    · left
      simp [hexpired]

theorem mem_iter (m : TimedMap κ V) (reading : κ → ℕ) (key : κ) (val : V) :
    (key, val) ∈ (m.iter reading).1 ↔ m.content.visible (reading key) key = some val := by
  have hentry : (key, val) ∈ (m.iter reading).1 ↔
      ∃ found, (m.unexpired reading).get? key = some found ∧ found.get = val := by
    simp [iter, OrderedMap.get?_eq_some_iff]
  rw [hentry, visible_content, get?_unexpired]
  cases m.inner.get? key with
  | none => simp
  | some found => cases h : found.isExpired (reading key) <;> simp [h]

end TimedMap

/-! ### Operations under a clock -/

/-- The operations of a timed map, and the passing of time. Iterations and purges take up to
`span` milliseconds, and come to a key after `delay` of them. -/
inductive TimedOp (κ V : Type)
  | insertConstant (key : κ) (val : V)
  | insertExpirable (key : κ) (val : V) (timeout : ℕ)
  | get (key : κ)
  | containsKey (key : κ)
  | remove (key : κ)
  | clear
  | purgeExpired (span : ℕ) (delay : κ → ℕ)
  | iter (span : ℕ) (delay : κ → ℕ)
  | tick (ms : ℕ)

structure TimedState (κ V : Type) [LinearOrder κ] where
  map : TimedMap κ V
  now : ℕ

namespace TimedState

/-- The clock reading for a key in a traversal that begins now. -/
def reading (s : TimedState κ V) (span : ℕ) (delay : κ → ℕ) (key : κ) : ℕ :=
  s.now + min (delay key) span

def perform (s : TimedState κ V) : TimedOp κ V → TimedState κ V
  | .insertConstant key val => { s with map := s.map.insertConstant key val }
  | .insertExpirable key val timeout =>
    { s with map := s.map.insertExpirable key val timeout s.now }
  | .get key => { s with map := (s.map.get key s.now).2 }
  | .containsKey key => { s with map := (s.map.containsKey key s.now).2 }
  | .remove key => { s with map := s.map.remove key }
  | .clear => { s with map := s.map.clear }
  | .purgeExpired span delay => ⟨s.map.purgeExpired (s.reading span delay), s.now + span⟩
  | .iter span delay => ⟨(s.map.iter (s.reading span delay)).2, s.now + span⟩
  | .tick ms => { s with now := s.now + ms }

theorem reading_le (s : TimedState κ V) (span : ℕ) (delay : κ → ℕ) (key : κ) :
    s.reading span delay key ≤ s.now + span := by
  unfold reading
  omega

theorem le_reading (s : TimedState κ V) (span : ℕ) (delay : κ → ℕ) (key : κ) :
    s.now ≤ s.reading span delay key := by
  unfold reading
  omega

theorem disableExpiration_perform (s : TimedState κ V) (op : TimedOp κ V) :
    (s.perform op).map.disableExpiration = s.map.disableExpiration := by
  cases op with
  | insertExpirable key val timeout => exact s.map.disableExpiration_insertExpirable ..
  | get key => exact s.map.disableExpiration_get key s.now
  | containsKey key =>
    simp only [perform, TimedMap.containsKey_snd, TimedMap.disableExpiration_get]
  | purgeExpired span delay =>
    simp only [perform, TimedMap.purgeExpired]
    split_ifs <;> rfl
  | _ => rfl

end TimedState

/-! ### Expiration enabled -/

/-- A map at an instant, and the insertions that no removal or later insertion has undone. -/
structure TimedRun (κ V : Type) [LinearOrder κ] where
  state : TimedState κ V
  inserted : ExpiringMap ℕ κ V

namespace TimedRun

/-- Only insertions, removals and clearing count. -/
def record (inserted : ExpiringMap ℕ κ V) (now : ℕ) : TimedOp κ V → ExpiringMap ℕ κ V
  | .insertConstant key val => inserted.insert key val ⊤
  | .insertExpirable key val timeout => inserted.insert key val (WithTop.some (now + timeout))
  | .remove key => inserted.erase key
  | .clear => .empty
  | _ => inserted

def step (r : TimedRun κ V) (op : TimedOp κ V) : Option (TimedRun κ V) :=
  some ⟨r.state.perform op, record r.inserted r.state.now op⟩

/-- The operation answers as the most recent insertions say: a read yields the value of the
insertion whose deadline is later than now, and an iteration lists each such key once. -/
def Right (r : TimedRun κ V) : TimedOp κ V → Prop
  | .get key => (r.state.map.get key r.state.now).1 = r.inserted.visible r.state.now key
  | .containsKey key =>
    (r.state.map.containsKey key r.state.now).1 = (r.inserted.visible r.state.now key).isSome
  | .iter span delay =>
    let listed := (r.state.map.iter (r.state.reading span delay)).1
    (∀ key val, (key, val) ∈ listed ↔
      r.inserted.visible (r.state.reading span delay key) key = some val) ∧
      (listed.map Prod.fst).Nodup
  | _ => True

/-- Expiration is enabled, and from now on the map looks like the insertions. -/
structure Inv (r : TimedRun κ V) : Prop where
  enabled : r.state.map.disableExpiration = false
  same : ExpiringMap.SameFrom r.state.now r.state.map.content r.inserted

theorem step_inv (r : TimedRun κ V) (op : TimedOp κ V) (t : TimedRun κ V) (h : r.Inv)
    (hstep : r.step op = some t) : t.Inv := by
  obtain rfl := Option.some.inj hstep
  refine ⟨(r.state.disableExpiration_perform op).trans h.enabled, ?_⟩
  have hspan (span : ℕ) (delay : κ → ℕ) :
      ExpiringMap.SameFrom (r.state.now + span)
        { r.state.map with inner := r.state.map.unexpired (r.state.reading span delay) }.content
        r.inserted :=
    (h.same.later (Nat.le_add_right _ span)).evicted
      (r.state.map.evicted_unexpired (r.state.reading_le span delay))
  cases op with
  | insertConstant key val =>
    simp only [TimedState.perform, record, TimedMap.content_insertConstant]
    exact h.same.insert key val ⊤
  | insertExpirable key val timeout =>
    simp only [TimedState.perform, record, TimedMap.content_insertExpirable h.enabled]
    exact h.same.insert key val _
  | get key => exact h.same.evicted (r.state.map.evicted_get key r.state.now)
  | containsKey key =>
    simp only [TimedState.perform, record, TimedMap.containsKey_snd]
    exact h.same.evicted (r.state.map.evicted_get key r.state.now)
  | remove key =>
    simp only [TimedState.perform, record, TimedMap.content_remove]
    exact h.same.erase key
  | clear => exact ExpiringMap.SameFrom.refl _ _
  | purgeExpired span delay =>
    simp only [TimedState.perform, record, TimedMap.purgeExpired, h.enabled]
    exact hspan span delay
  | iter span delay => exact hspan span delay
  | tick ms => exact h.same.later (Nat.le_add_right _ ms)

theorem Inv.right {r : TimedRun κ V} (h : r.Inv) (op : TimedOp κ V) : r.Right op := by
  cases op with
  | get key => exact (r.state.map.get_fst key _).trans (h.same _ le_rfl key)
  | containsKey key =>
    rw [Right, TimedMap.containsKey_fst, TimedMap.live_eq_visible, h.same _ le_rfl key]
  | iter span delay =>
    refine ⟨fun key val => ?_, ?_⟩
    · rw [TimedMap.mem_iter, h.same _ (r.state.le_reading span delay key) key]
    · rw [TimedMap.iter, List.map_map]
      exact OrderedMap.nodup_keys _
  | _ => trivial

def start (now : ℕ) : TimedRun κ V := ⟨⟨.new, now⟩, .empty⟩

/-- Whatever the operations and however the time passes, reads and iterations of a new timed map
answer from the most recent insertions alone; evictions are not seen. -/
theorem answers_by_insertions (now : ℕ) (ops : List (TimedOp κ V)) :
    Guarded step Right (start now) ops :=
  guarded_of_invariant step_inv (fun _ op h => h.right op)
    (⟨rfl, ExpiringMap.SameFrom.refl _ _⟩ : (start now : TimedRun κ V).Inv) ops

end TimedRun

/-! ### Expiration disabled -/

/-- All operations of a map whose expiration is disabled and not toggled back. -/
inductive DisabledOp (κ V : Type)
  | plain (op : TimedOp κ V)
  | updateExpirationStatus (key : κ) (duration : ℕ)

/-- The operation is a removal of the key, or an insertion that replaces its entry. -/
def DisabledOp.Replaces (key : κ) : DisabledOp κ V → Prop
  | .plain (.insertConstant k _) => k = key
  | .plain (.insertExpirable k _ _) => k = key
  | .plain (.remove k) => k = key
  | .plain .clear => True
  | _ => False

namespace TimedState

/-- Every way to look at the key shows the value. -/
def Seen (s : TimedState κ V) (key : κ) (val : V) : Prop :=
  (s.map.get key s.now).1 = some val ∧ (s.map.containsKey key s.now).1 = true ∧
    (key, val) ∈ (s.map.iter fun _ => s.now).1

/-- From `s` to `t` the entry under the key does not become invisible and is not evicted. -/
structure KeptIn (s t : TimedState κ V) (key : κ) : Prop where
  seen : ∀ val, s.Seen key val → t.Seen key val
  present : (s.map.inner.get? key).isSome = true → (t.map.inner.get? key).isSome = true

def stepDisabled (s : TimedState κ V) : DisabledOp κ V → Option (TimedState κ V)
  | .plain op => some (s.perform op)
  | .updateExpirationStatus key duration =>
    some { s with map := (s.map.updateExpirationStatus key duration s.now).2 }

/-- The operation keeps all entries but those that it removes or replaces. -/
def Keeps (s : TimedState κ V) (op : DisabledOp κ V) : Prop :=
  ∀ t, s.stepDisabled op = some t → ∀ key, ¬ op.Replaces key → s.KeptIn t key

/-- No entry reaches its deadline in the next `ms` milliseconds. -/
def NoneDueWithin (s : TimedState κ V) (ms : ℕ) : Prop :=
  ∀ key found, s.map.inner.get? key = some found → found.isExpired s.now = false →
    found.isExpired (s.now + ms) = false

/-- No deadline comes into play: none passes while the operation lasts, no expired entry is read
or iterated over, and none is reset to the present instant. -/
def Undue (s : TimedState κ V) : DisabledOp κ V → Prop
  | .plain (.get key) => (s.map.inner.get? key).any (ExpiryValue.isExpired · s.now) = false
  | .plain (.containsKey key) => (s.map.inner.get? key).any (ExpiryValue.isExpired · s.now) = false
  | .plain (.purgeExpired span _) => s.NoneDueWithin span
  | .plain (.iter span _) =>
    ∀ key found, s.map.inner.get? key = some found → found.isExpired (s.now + span) = false
  | .plain (.tick ms) => s.NoneDueWithin ms
  | .updateExpirationStatus key duration =>
    ∀ value expiresAt, s.map.inner.get? key = some (.expirable value expiresAt) →
      s.now < expiresAt → 0 < duration
  | _ => True

theorem seen_iff (s : TimedState κ V) (key : κ) (val : V) :
    s.Seen key val ↔ ∃ found, s.map.inner.get? key = some found ∧
      found.isExpired s.now = false ∧ found.get = val := by
  have hvisible : s.Seen key val ↔ s.map.content.visible s.now key = some val := by
    unfold Seen
    rw [TimedMap.get_fst, TimedMap.containsKey_fst, TimedMap.live_eq_visible, TimedMap.mem_iter]
    constructor
    · exact And.left
    · intro h
      exact ⟨h, by rw [h]; rfl, h⟩
  rw [hvisible, TimedMap.visible_content_eq_some_iff]

theorem keptIn_iff_of_same (s t : TimedState κ V) (key : κ)
    (h : t.map.inner.get? key = s.map.inner.get? key) :
    s.KeptIn t key ↔ ∀ found, s.map.inner.get? key = some found →
      found.isExpired s.now = false → found.isExpired t.now = false := by
  constructor
  · intro hkept found hfound hlive
    have hseen := hkept.seen found.get ((s.seen_iff key _).mpr ⟨found, hfound, hlive, rfl⟩)
    obtain ⟨found', hfound', hlive', -⟩ := (t.seen_iff key _).mp hseen
    rw [h, hfound] at hfound'
    rwa [Option.some.inj hfound']
  · intro hlive
    refine ⟨fun val hseen => ?_, fun hsome => by rwa [h]⟩
    obtain ⟨found, hfound, hnow, hval⟩ := (s.seen_iff key val).mp hseen
    exact (t.seen_iff key val).mpr ⟨found, h.trans hfound, hlive found hfound hnow, hval⟩

theorem keptIn_of_same {s t : TimedState κ V} {key : κ}
    (h : t.map.inner.get? key = s.map.inner.get? key) (hnow : t.now = s.now) : s.KeptIn t key :=
  (s.keptIn_iff_of_same t key h).mpr fun _ _ hlive => by rwa [hnow]

theorem keeps_of_same {s t : TimedState κ V} {op : DisabledOp κ V}
    (hstep : s.stepDisabled op = some t) (hnow : t.now = s.now)
    (h : ∀ key, ¬ op.Replaces key → t.map.inner.get? key = s.map.inner.get? key) :
    s.Keeps op := by
  intro u hu key hreplaces
  obtain rfl := Option.some.inj (hstep.symm.trans hu)
  exact keptIn_of_same (h key hreplaces) hnow

theorem KeptIn.get?_ne_none {s t : TimedState κ V} {key : κ} (h : s.KeptIn t key)
    {found : ExpiryValue V} (hfound : s.map.inner.get? key = some found) :
    t.map.inner.get? key ≠ none := by
  have hpresent := h.present (by rw [hfound]; rfl)
  exact Option.isSome_iff_ne_none.mp hpresent

/-- A read keeps the entries just if the one it finds has not expired. -/
theorem keeps_read_iff (s : TimedState κ V) {op : DisabledOp κ V} {key : κ}
    (hreplaces : ∀ key', ¬ op.Replaces key')
    (hstep : s.stepDisabled op = some { s with
      map := if (s.map.inner.get? key).any (ExpiryValue.isExpired · s.now) then s.map.remove key
        else s.map }) :
    s.Keeps op ↔ (s.map.inner.get? key).any (ExpiryValue.isExpired · s.now) = false := by
  constructor
  · intro h
    have hkept := h _ hstep key (hreplaces key)
    by_contra hexpired
    rw [Bool.not_eq_false] at hexpired
    obtain ⟨found, hfound, -⟩ := (Option.any_eq_true ..).mp hexpired
    refine hkept.get?_ne_none hfound ?_
    simp only [if_pos hexpired, TimedMap.remove, OrderedMap.get?_remove, if_true]
  · intro hlive
    rw [hlive] at hstep
    exact keeps_of_same hstep rfl fun _ _ => rfl

theorem keeps_wait_iff (s : TimedState κ V) {op : DisabledOp κ V} {ms : ℕ}
    (hreplaces : ∀ key, ¬ op.Replaces key)
    (hstep : s.stepDisabled op = some { s with now := s.now + ms }) :
    s.Keeps op ↔ s.NoneDueWithin ms := by
  have hkept (key : κ) := s.keptIn_iff_of_same { s with now := s.now + ms } key rfl
  constructor
  · intro h key
    exact (hkept key).mp (h _ hstep key (hreplaces key))
  · intro h t ht key _
    obtain rfl := Option.some.inj (hstep.symm.trans ht)
    exact (hkept key).mpr (h key)

theorem keeps_iter_iff (s : TimedState κ V) (span : ℕ) (delay : κ → ℕ) :
    s.Keeps (.plain (.iter span delay)) ↔ s.Undue (.plain (.iter span delay)) := by
  have hstay (key : κ) {found : ExpiryValue V} (hfound : s.map.inner.get? key = some found)
      (hlive : found.isExpired (s.reading span delay key) = false) :
      (s.perform (.iter span delay)).map.inner.get? key = s.map.inner.get? key := by
    simp [perform, TimedMap.iter, TimedMap.get?_unexpired, hfound, hlive]
  constructor
  · intro h key found hfound
    have hkept := h _ rfl key not_false
    have hlive : found.isExpired (s.reading span delay key) = false := by
      by_contra hexpired
      rw [Bool.not_eq_false] at hexpired
      refine hkept.get?_ne_none hfound ?_
      simp [perform, TimedMap.iter, TimedMap.get?_unexpired, hfound, hexpired]
    have hbefore := found.not_isExpired_of_le (s.le_reading span delay key) hlive
    exact (s.keptIn_iff_of_same _ key (hstay key hfound hlive)).mp hkept found hfound hbefore
  · intro h t ht key _
    obtain rfl := Option.some.inj ht
    cases hfound : s.map.inner.get? key with
    | none =>
      have hnone : (s.perform (.iter span delay)).map.inner.get? key = s.map.inner.get? key := by
        simp [perform, TimedMap.iter, TimedMap.get?_unexpired, hfound]
      rw [s.keptIn_iff_of_same _ key hnone]
      simp [hfound]
    | some found =>
      have hlive := found.not_isExpired_of_le (s.reading_le span delay key) (h key found hfound)
      rw [s.keptIn_iff_of_same _ key (hstay key hfound hlive)]
      intro found' hfound' _
      exact h key found' hfound'

theorem keeps_update_iff (s : TimedState κ V) (key : κ) (duration : ℕ) :
    s.Keeps (.updateExpirationStatus key duration) ↔
      s.Undue (.updateExpirationStatus key duration) := by
  constructor
  · intro h value expiresAt hfound hlt
    have hseen := (h _ rfl key not_false).seen value ((s.seen_iff key value).mpr
      ⟨_, hfound, (ExpiryValue.isExpired_expirable ..).mpr hlt, rfl⟩)
    rw [seen_iff, s.map.updateExpirationStatus_of_expirable hfound] at hseen
    obtain ⟨found, hreset, hlive, -⟩ := hseen
    rw [OrderedMap.get?_insert, if_pos rfl, Option.some.injEq] at hreset
    subst hreset
    exact Nat.lt_add_right_iff_pos.mp ((ExpiryValue.isExpired_expirable ..).mp hlive)
  · intro h t ht key' _
    obtain rfl := Option.some.inj ht
    by_cases hfound : ∃ value expiresAt, s.map.inner.get? key = some (.expirable value expiresAt)
    · obtain ⟨value, expiresAt, hfound⟩ := hfound
      rw [s.map.updateExpirationStatus_of_expirable hfound]
      by_cases hkey : key' = key
      · subst hkey
        refine ⟨fun val hseen => ?_, fun _ => ?_⟩
        · obtain ⟨found, hfound', hlive, hval⟩ := (s.seen_iff key' val).mp hseen
          obtain rfl := Option.some.inj (hfound.symm.trans hfound')
          have hpos := h value expiresAt hfound ((ExpiryValue.isExpired_expirable ..).mp hlive)
          refine (seen_iff ..).mpr ⟨.expirable value (s.now + duration), ?_, ?_, hval⟩
          · rw [OrderedMap.get?_insert, if_pos rfl]
          · exact (ExpiryValue.isExpired_expirable ..).mpr (Nat.lt_add_right_iff_pos.mpr hpos)
        · simp [OrderedMap.get?_insert]
      · exact keptIn_of_same (by rw [OrderedMap.get?_insert, if_neg hkey]) rfl
    · push Not at hfound
      rw [s.map.updateExpirationStatus_of_not_expirable hfound]
      exact keptIn_of_same rfl rfl

/-- While expiration is disabled, an operation keeps the entries just if no deadline comes into
play. -/
theorem keeps_iff_undue {s : TimedState κ V} (hoff : s.map.disableExpiration = true)
    (op : DisabledOp κ V) : s.Keeps op ↔ s.Undue op := by
  cases op with
  | updateExpirationStatus key duration => exact s.keeps_update_iff key duration
  | plain op =>
    cases op with
    | insertConstant k val =>
      refine iff_of_true (keeps_of_same rfl rfl fun key hne => ?_) trivial
      simp only [perform, TimedMap.insertConstant, OrderedMap.get?_insert, if_neg (Ne.symm hne)]
    | insertExpirable k val timeout =>
      refine iff_of_true (keeps_of_same rfl rfl fun key hne => ?_) trivial
      simp only [perform, TimedMap.get?_inner_insertExpirable, if_neg (Ne.symm hne)]
    | get key =>
      refine s.keeps_read_iff (fun _ => not_false) ?_
      simp only [stepDisabled, perform, TimedMap.get_snd]
    | containsKey key =>
      refine s.keeps_read_iff (fun _ => not_false) ?_
      simp only [stepDisabled, perform, TimedMap.containsKey_snd, TimedMap.get_snd]
    | remove k =>
      refine iff_of_true (keeps_of_same rfl rfl fun key hne => ?_) trivial
      simp only [perform, TimedMap.remove, OrderedMap.get?_remove, if_neg (Ne.symm hne)]
    | clear => exact iff_of_true (fun t ht key hne => absurd trivial hne) trivial
    | purgeExpired span delay =>
      refine s.keeps_wait_iff (fun _ => not_false) ?_
      simp only [stepDisabled, perform, TimedMap.purgeExpired, hoff, if_true]
    | iter span delay => exact s.keeps_iter_iff span delay
    | tick ms => exact s.keeps_wait_iff (fun _ => not_false) rfl

theorem disableExpiration_stepDisabled {s t : TimedState κ V} {op : DisabledOp κ V}
    (hstep : s.stepDisabled op = some t) :
    t.map.disableExpiration = s.map.disableExpiration := by
  cases op with
  | plain op =>
    obtain rfl := Option.some.inj hstep
    exact s.disableExpiration_perform op
  | updateExpirationStatus key duration =>
    obtain rfl := Option.some.inj hstep
    simp only [TimedMap.updateExpirationStatus]
    split <;> rfl

/-- Whatever the content when expiration is disabled: in a run of operations all entries are kept
just if no deadline comes into play. -/
theorem disabled_keeps_iff (inner : OrderedMap κ (ExpiryValue V)) (now : ℕ)
    (ops : List (DisabledOp κ V)) :
    Guarded stepDisabled Keeps ⟨⟨inner, true⟩, now⟩ ops ↔
      Guarded stepDisabled Undue ⟨⟨inner, true⟩, now⟩ ops := by
  have hoff : ∀ (s : TimedState κ V) op t, s.map.disableExpiration = true →
      s.stepDisabled op = some t → t.map.disableExpiration = true :=
    fun s op t hs hstep => (disableExpiration_stepDisabled hstep).trans hs
  exact guarded_congr hoff (fun s op hs => keeps_iff_undue hs op) rfl ops

/-- An entry with a timeout of ten milliseconds is inserted, and expiration is disabled. After
ten milliseconds a read does not find the entry, and evicts it. -/
theorem disabled_evicts :
    let m := ((TimedMap.new : TimedMap ℕ ℕ).insertExpirable 1 7 10 0).toggleExpiration
    m.disableExpiration = true ∧ (m.get 1 9).1 = some 7 ∧ (m.get 1 10).1 = none ∧
      (m.get 1 10).2.inner.get? 1 = none ∧
      ¬ Guarded stepDisabled Keeps ⟨m, 0⟩ [.plain (.tick 10), .plain (.get 1)] := by
  refine ⟨rfl, rfl, rfl, rfl, fun h => ?_⟩
  have hseen := (h.1 _ rfl 1 not_false).seen 7 (by simp only [Seen]; decide)
  exact absurd hseen.1 (by decide)

end TimedState

end Kiomq
