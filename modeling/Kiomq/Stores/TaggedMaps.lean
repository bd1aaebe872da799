import Kiomq.Foundations.Rekeying
import Kiomq.Stores.Tags
import Kiomq.Stores.TimedRuns

/-!
# Timed maps under tags

The records and the locks of the in-memory store are kept in timed maps under the tags of their
suffixes, which the model keeps under the suffixes themselves. Both are performed side by side:
for numbers of jobs that fit into a tag, every operation answers alike in both maps, whatever has
been done to them before and whenever entries expire.
-/

namespace Kiomq

open Foundations OrderedMap

variable {κ κ' V : Type} [LinearOrder κ] [LinearOrder κ']

/-- The same operation under the keys that `f` gives. A traversal reads the clock for the new
keys. -/
inductive TimedOp.Rekeyed (f : κ → κ') (s : Set κ) : TimedOp κ V → TimedOp κ' V → Prop
  | insertConstant {key : κ} (hkey : key ∈ s) (val : V) :
      Rekeyed f s (.insertConstant key val) (.insertConstant (f key) val)
  | insertExpirable {key : κ} (hkey : key ∈ s) (val : V) (timeout : ℕ) :
      Rekeyed f s (.insertExpirable key val timeout) (.insertExpirable (f key) val timeout)
  | get {key : κ} (hkey : key ∈ s) : Rekeyed f s (.get key) (.get (f key))
  | containsKey {key : κ} (hkey : key ∈ s) :
      Rekeyed f s (.containsKey key) (.containsKey (f key))
  | remove {key : κ} (hkey : key ∈ s) : Rekeyed f s (.remove key) (.remove (f key))
  | clear : Rekeyed f s .clear .clear
  | purgeExpired (span : ℕ) (delay : κ' → ℕ) :
      Rekeyed f s (.purgeExpired span (delay ∘ f)) (.purgeExpired span delay)
  | iter (span : ℕ) (delay : κ' → ℕ) : Rekeyed f s (.iter span (delay ∘ f)) (.iter span delay)
  | tick (ms : ℕ) : Rekeyed f s (.tick ms) (.tick ms)

structure TimedState.Rekeyed (f : κ → κ') (s : Set κ) (t : TimedState κ V)
    (t' : TimedState κ' V) : Prop where
  now : t'.now = t.now
  flag : t'.map.disableExpiration = t.map.disableExpiration
  inner : t.map.inner.Rekeyed f s t'.map.inner

namespace TimedState.Rekeyed

variable {f : κ → κ'} {s : Set κ} {t : TimedState κ V} {t' : TimedState κ' V}

theorem unexpired (h : t.Rekeyed f s t') (span : ℕ) (delay : κ' → ℕ) :
    (t.map.unexpired (t.reading span (delay ∘ f))).Rekeyed f s
      (t'.map.unexpired (t'.reading span delay)) := by
  refine h.inner.filter fun e _ => ?_
  simp only [TimedState.reading, h.now, Function.comp_apply]

variable (hf : StrictMonoOn f s)
include hf

theorem get?_eq (h : t.Rekeyed f s t') {key : κ} (hkey : key ∈ s) :
    t'.map.inner.get? (f key) = t.map.inner.get? key := h.inner.get? hf hkey

theorem get_fst (h : t.Rekeyed f s t') {key : κ} (hkey : key ∈ s) :
    (t'.map.get (f key) t'.now).1 = (t.map.get key t.now).1 := by
  rw [TimedMap.get_fst, TimedMap.get_fst, TimedMap.visible_content, TimedMap.visible_content,
    h.get?_eq hf hkey, h.now]

theorem containsKey_fst (h : t.Rekeyed f s t') {key : κ} (hkey : key ∈ s) :
    (t'.map.containsKey (f key) t'.now).1 = (t.map.containsKey key t.now).1 := by
  rw [TimedMap.containsKey_fst, TimedMap.containsKey_fst, TimedMap.live, TimedMap.live,
    h.get?_eq hf hkey, h.now]

theorem get_snd (h : t.Rekeyed f s t') {key : κ} (hkey : key ∈ s) :
    Rekeyed f s { t with map := (t.map.get key t.now).2 }
      { t' with map := (t'.map.get (f key) t'.now).2 } := by
  refine ⟨h.now, ?_, ?_⟩
  · simp only [TimedMap.disableExpiration_get, h.flag]
  · simp only [TimedMap.get_snd, h.get?_eq hf hkey, h.now]
    split_ifs
    · exact h.inner.remove hf hkey
    · exact h.inner

theorem perform (h : t.Rekeyed f s t') {op : TimedOp κ V} {op' : TimedOp κ' V}
    (hop : op.Rekeyed f s op') : (t.perform op).Rekeyed f s (t'.perform op') := by
  cases hop with
  | insertConstant hkey val => exact ⟨h.now, h.flag, h.inner.insert hf hkey _⟩
  | insertExpirable hkey val timeout =>
    refine ⟨h.now, ?_, ?_⟩
    · simp only [TimedState.perform, TimedMap.disableExpiration_insertExpirable, h.flag]
    · simp only [TimedState.perform, TimedMap.insertExpirable, h.flag, h.now]
      split_ifs
      · exact h.inner.insert hf hkey _
      · exact h.inner.insert hf hkey _
  | get hkey => exact h.get_snd hf hkey
  | containsKey hkey =>
    simp only [TimedState.perform, TimedMap.containsKey_snd]
    exact h.get_snd hf hkey
  | remove hkey => exact ⟨h.now, h.flag, h.inner.remove hf hkey⟩
  | clear => exact ⟨h.now, h.flag, OrderedMap.Rekeyed.empty⟩
  | purgeExpired span delay =>
    refine ⟨congrArg (· + span) h.now, ?_, ?_⟩
    · simp only [TimedState.disableExpiration_perform, h.flag]
    · simp only [TimedState.perform, TimedMap.purgeExpired, h.flag]
      split_ifs
      · exact h.inner
      · exact h.unexpired span delay
  | iter span delay => exact ⟨congrArg (· + span) h.now, h.flag, h.unexpired span delay⟩
  | tick ms => exact ⟨congrArg (· + ms) h.now, h.flag, h.inner⟩

end TimedState.Rekeyed

/-! ### Runs side by side -/

namespace TaggedRun

def step (p : TimedState κ V × TimedState κ' V) (a : TimedOp κ V × TimedOp κ' V) :
    Option (TimedState κ V × TimedState κ' V) :=
  some (p.1.perform a.1, p.2.perform a.2)

/-- The operations answer alike; the entries of an iteration come in the same order. -/
def AnswersAlike (f : κ → κ') (p : TimedState κ V × TimedState κ' V) :
    TimedOp κ V × TimedOp κ' V → Prop
  | (.get key, .get key') => (p.2.map.get key' p.2.now).1 = (p.1.map.get key p.1.now).1
  | (.containsKey key, .containsKey key') =>
    (p.2.map.containsKey key' p.2.now).1 = (p.1.map.containsKey key p.1.now).1
  | (.iter span delay, .iter span' delay') =>
    (p.2.map.iter (p.2.reading span' delay')).1 =
      (p.1.map.iter (p.1.reading span delay)).1.map fun e => (f e.1, e.2)
  | _ => True

theorem answersAlike {f : κ → κ'} {s : Set κ} (hf : StrictMonoOn f s)
    {p : TimedState κ V × TimedState κ' V} (h : p.1.Rekeyed f s p.2)
    {a : TimedOp κ V × TimedOp κ' V} (ha : a.1.Rekeyed f s a.2) : AnswersAlike f p a := by
  obtain ⟨op, op'⟩ := a
  cases ha with
  | get hkey => exact h.get_fst hf hkey
  | containsKey hkey => exact h.containsKey_fst hf hkey
  | iter span delay =>
    simp only [AnswersAlike, TimedMap.iter, (h.unexpired span delay).entries, List.map_map]
    rfl
  | _ => trivial

theorem rekeyed_alike {f : κ → κ'} {s : Set κ} (hf : StrictMonoOn f s) (now : ℕ)
    {ops : List (TimedOp κ V × TimedOp κ' V)}
    (hops : Guarded step (fun _ a => a.1.Rekeyed f s a.2) (⟨.new, now⟩, ⟨.new, now⟩) ops) :
    Guarded step (AnswersAlike f) (⟨.new, now⟩, ⟨.new, now⟩) ops := by
  have hstart : (⟨.new, now⟩ : TimedState κ V).Rekeyed f s ⟨.new, now⟩ :=
    ⟨rfl, rfl, OrderedMap.Rekeyed.empty⟩
  have hstep : ∀ (p : TimedState κ V × TimedState κ' V) a q, p.1.Rekeyed f s p.2 →
      a.1.Rekeyed f s a.2 → step p a = some q → q.1.Rekeyed f s q.2 := by
    intro p a q hp ha hq
    obtain rfl := Option.some.inj hq
    exact hp.perform hf ha
  exact guarded_of_guarded hstep (fun _ _ hp ha => answersAlike hf hp ha) hstart hops

/-- The maps of the in-memory store answer under tags as they do under suffixes. -/
theorem tagged_alike (now : ℕ) {ops : List (TimedOp CollectionSuffix V × TimedOp ℕ V)}
    (hops : Guarded step (fun _ a => a.1.Rekeyed CollectionSuffix.tag {s | s.payload < 2 ^ 56} a.2)
      (⟨.new, now⟩, ⟨.new, now⟩) ops) :
    Guarded step (AnswersAlike CollectionSuffix.tag) (⟨.new, now⟩, ⟨.new, now⟩) ops :=
  rekeyed_alike CollectionSuffix.strictMonoOn_tag now hops

/-- The lock of job 1 is taken for thirty milliseconds, is there, and has expired later on, when
the lock of job 2 is taken and all locks are listed. -/
def lockOps : List (TimedOp CollectionSuffix ℕ × TimedOp ℕ ℕ) :=
  [(.insertExpirable (.lock 1) 7 30, .insertExpirable (CollectionSuffix.lock 1).tag 7 30),
    (.get (.lock 1), .get (CollectionSuffix.lock 1).tag), (.tick 40, .tick 40),
    (.insertConstant (.lock 2) 8, .insertConstant (CollectionSuffix.lock 2).tag 8),
    (.iter 5 ((fun _ => 3) ∘ CollectionSuffix.tag), .iter 5 fun _ => 3),
    (.containsKey (.lock 1), .containsKey (CollectionSuffix.lock 1).tag)]

theorem lockOps_alike :
    Guarded step (AnswersAlike CollectionSuffix.tag) (⟨.new, 100⟩, ⟨.new, 100⟩) lockOps := by
  have hone : CollectionSuffix.lock 1 ∈ {s : CollectionSuffix | s.payload < 2 ^ 56} := by
    simp [CollectionSuffix.payload]
  have htwo : CollectionSuffix.lock 2 ∈ {s : CollectionSuffix | s.payload < 2 ^ 56} := by
    simp [CollectionSuffix.payload]
  exact tagged_alike 100 ⟨.insertExpirable hone 7 30, fun _ _ => ⟨.get hone, fun _ _ => ⟨.tick 40,
    fun _ _ => ⟨.insertConstant htwo 8, fun _ _ => ⟨.iter 5 fun _ => 3, fun _ _ =>
      ⟨.containsKey hone, fun _ _ => trivial⟩⟩⟩⟩⟩⟩

end TaggedRun

end Kiomq
