import Kiomq.Foundations.Parties
import Kiomq.Redis.Metrics

/-!
# Agreement on the event mode

`Queue::new` stores the requested mode only if no mode is stored and the request differs
from the default that it reads in this case. A request of the default mode is therefore
never stored, and a later request of `PubSub` still is. The instances opened before keep
their listeners on the stream.
-/

namespace Kiomq

open Foundations Redis

variable {M : Type}

/-- Queues opened one after another on the same store. -/
structure ModeRun (M : Type) where
  db : Database Text M
  instances : List RedisQueue

/-- `Queue::new`, or a refresh of the metrics of an instance, by itself or after an event. -/
inductive ModeAction
  | new (queueOpts : Option QueueOpts)
  | getMetrics (k : ℕ)

def ModeAction.request : ModeAction → Option (Option QueueEventMode)
  | .new queueOpts => some (queueOpts.getD {}).eventMode
  | .getMetrics _ => none

def requests (as : List ModeAction) : List (Option QueueEventMode) :=
  as.filterMap ModeAction.request

namespace ModeRun

def step (T : CaseTable) (st : RedisStore) (σ : ModeRun M) : ModeAction → ModeRun M
  | .new queueOpts =>
    let out := RedisQueue.new T st queueOpts σ.db
    ⟨out.2, σ.instances ++ [out.1]⟩
  | .getMetrics k => { σ with instances := σ.instances.modify k (RedisQueue.getMetrics T st σ.db) }

def after (T : CaseTable) (st : RedisStore) (σ : ModeRun M) (as : List ModeAction) : ModeRun M :=
  as.foldl (step T st) σ

@[simp] theorem after_nil (T : CaseTable) (st : RedisStore) (σ : ModeRun M) :
    σ.after T st [] = σ := rfl

@[simp] theorem after_cons (T : CaseTable) (st : RedisStore) (σ : ModeRun M) (a : ModeAction)
    (as : List ModeAction) : σ.after T st (a :: as) = (σ.step T st a).after T st as := rfl

def storedMode (T : CaseTable) (st : RedisStore) (db : Database Text M) : Option QueueEventMode :=
  (st.getMetrics T db).map QueueMetrics.eventMode

/-- Every instance publishes in the mode that its listener was started with and that the
store has. -/
def Agreed (T : CaseTable) (st : RedisStore) (σ : ModeRun M) : Prop :=
  ∀ q ∈ σ.instances, q.listenerMode = q.eventMode ∧ storedMode T st σ.db = some q.eventMode

/-! ### The stored mode -/

variable (T : CaseTable) (st : RedisStore)

theorem hget_setEventMode (db : Database Text M) (mode : QueueEventMode) (field : String)
    (hne : field ≠ "event_mode") :
    (st.setEventMode T db mode).hget (st.metaKey T) field = db.hget (st.metaKey T) field := by
  simp [RedisStore.setEventMode, Server.hget_hsetMultiple, Server.lookupField, Ne.symm hne]

theorem getMetrics_setEventMode {db : Database Text M} {metrics : QueueMetrics}
    (h : st.getMetrics T db = some metrics) (mode : QueueEventMode) :
    st.getMetrics T (st.setEventMode T db mode) = some { metrics with eventMode := mode } := by
  have hfield := hget_setEventMode T st db mode
  have hmode : RedisStore.readField QueueEventMode.ofText
      ((st.setEventMode T db mode).hget (st.metaKey T) "event_mode") = some (some mode) := by
    simp [RedisStore.setEventMode, Server.hget_hsetMultiple, Server.lookupField,
      RedisStore.readField, QueueEventMode.ofText_text]
  obtain ⟨processing, hproc, h⟩ := Option.bind_eq_some_iff.mp h
  obtain ⟨old, -, rfl⟩ := Option.map_eq_some_iff.mp h
  simp only [RedisStore.getMetrics, hfield "processing" (by decide), hproc, hmode,
    Option.map_some, Option.bind_some, Server.hexists, hfield "paused" (by decide)]
  rfl

theorem metadataFieldExists_setEventMode (db : Database Text M) (mode : QueueEventMode) :
    st.metadataFieldExists T (st.setEventMode T db mode) "event_mode" = true := by
  simp [RedisStore.metadataFieldExists, RedisStore.setEventMode, Server.hexists,
    Server.hget_hsetMultiple, Server.lookupField]

theorem eventMode_of_not_exists {db : Database Text M} {metrics : QueueMetrics}
    (hexists : st.metadataFieldExists T db "event_mode" = false)
    (h : st.getMetrics T db = some metrics) : metrics.eventMode = .stream := by
  have hnone : db.hget (st.metaKey T) "event_mode" = none := by
    simpa [RedisStore.metadataFieldExists, Server.hexists] using hexists
  obtain ⟨processing, -, h⟩ := Option.bind_eq_some_iff.mp h
  obtain ⟨old, hold, rfl⟩ := Option.map_eq_some_iff.mp h
  rw [hnone] at hold
  obtain rfl := Option.some.inj hold
  rfl

/-! ### What one step keeps -/

/-- The field is there as `present` says, and `metrics` are what is read. -/
structure Reads (db : Database Text M) (present : Bool) (metrics : QueueMetrics) : Prop where
  field : st.metadataFieldExists T db "event_mode" = present
  read : st.getMetrics T db = some metrics

variable {T st}

theorem new_keeps {db : Database Text M} {present : Bool} {metrics : QueueMetrics}
    (h : Reads T st db present metrics) (queueOpts : Option QueueOpts)
    (hkeep : present = true ∨ (queueOpts.getD {}).eventMode ≠ some .pubSub) :
    RedisQueue.new T st queueOpts db = (⟨metrics, metrics.eventMode⟩, db) := by
  simp only [RedisQueue.new, h.field, h.read, Option.getD_some]
  cases hreq : (queueOpts.getD {}).eventMode with
  | none => rfl
  | some passed =>
    cases present with
    | true => rfl
    | false =>
      have hstream := eventMode_of_not_exists T st h.field h.read
      cases passed with
      | pubSub => simp [hreq] at hkeep
      | stream => simp [hstream]

theorem new_stores {db : Database Text M} {metrics : QueueMetrics}
    (h : Reads T st db false metrics) {queueOpts : Option QueueOpts}
    (hreq : (queueOpts.getD {}).eventMode = some .pubSub) :
    RedisQueue.new T st queueOpts db =
      (⟨{ metrics with eventMode := .pubSub }, .pubSub⟩, st.setEventMode T db .pubSub) := by
  have hstream := eventMode_of_not_exists T st h.field h.read
  simp [RedisQueue.new, h.field, h.read, hreq, hstream]

theorem reads_setEventMode {db : Database Text M} {present : Bool} {metrics : QueueMetrics}
    (h : Reads T st db present metrics) (mode : QueueEventMode) :
    Reads T st (st.setEventMode T db mode) true { metrics with eventMode := mode } :=
  ⟨metadataFieldExists_setEventMode T st db mode, getMetrics_setEventMode T st h.read mode⟩

theorem eventMode_getMetrics {db : Database Text M} {present : Bool} {metrics : QueueMetrics}
    (h : Reads T st db present metrics) (q : RedisQueue) :
    (RedisQueue.getMetrics T st db q).eventMode = metrics.eventMode := by
  simp [RedisQueue.getMetrics, RedisQueue.eventMode, h.read, QueueMetrics.update]

/-- Both modes of the instance are the given one. -/
def Uniform (mode : QueueEventMode) (q : RedisQueue) : Prop :=
  q.listenerMode = mode ∧ q.eventMode = mode

/-! ### Whole sequences of calls -/

theorem agreed_of_uniform {σ : ModeRun M} {present : Bool} {metrics : QueueMetrics}
    (h : Reads T st σ.db present metrics)
    (hall : ∀ q ∈ σ.instances, Uniform metrics.eventMode q) : σ.Agreed T st := by
  intro q hq
  obtain ⟨hlistener, hmode⟩ := hall q hq
  exact ⟨hlistener.trans hmode.symm, by rw [storedMode, h.read, Option.map_some, hmode]⟩

/-- With a stored mode nothing is stored any more, and every instance takes that mode. -/
theorem agreed_after_of_present {σ : ModeRun M} {metrics : QueueMetrics}
    (h : Reads T st σ.db true metrics)
    (hall : ∀ q ∈ σ.instances, Uniform metrics.eventMode q) (as : List ModeAction) :
    (σ.after T st as).Agreed T st := by
  induction as generalizing σ with
  | nil => exact agreed_of_uniform h hall
  | cons a as ih =>
    cases a with
    | new queueOpts =>
      apply ih
      · simpa [step, new_keeps h queueOpts (Or.inl rfl)] using h
      · simp only [step, new_keeps h queueOpts (Or.inl rfl)]
        exact forall_mem_concat hall ⟨rfl, rfl⟩
    | getMetrics k =>
      apply ih
      · exact h
      · apply forall_mem_modify k hall
        intro q hq
        exact ⟨hq.1, eventMode_getMetrics h q⟩

/-- An instance whose listener does not have the stored mode never agrees again. -/
theorem not_agreed_after_of_deaf {σ : ModeRun M} {metrics : QueueMetrics}
    (h : Reads T st σ.db true metrics)
    (hdeaf : ∃ q ∈ σ.instances, q.listenerMode ≠ metrics.eventMode) (as : List ModeAction) :
    ¬ (σ.after T st as).Agreed T st := by
  induction as generalizing σ with
  | nil =>
    obtain ⟨q, hq, hne⟩ := hdeaf
    intro hagreed
    obtain ⟨hlistener, hstored⟩ := hagreed q hq
    have hread : storedMode T st σ.db = some metrics.eventMode := by
      rw [storedMode, h.read, Option.map_some]
    rw [after_nil, hread] at hstored
    exact hne (hlistener.trans (Option.some.inj hstored).symm)
  | cons a as ih =>
    obtain ⟨q, hq, hne⟩ := hdeaf
    cases a with
    | new queueOpts =>
      apply ih
      · simpa [step, new_keeps h queueOpts (Or.inl rfl)] using h
      · exact ⟨q, List.mem_append_left _ hq, hne⟩
    | getMetrics k =>
      apply ih
      · exact h
      · obtain ⟨i, hi⟩ := List.mem_iff_getElem?.mp hq
        refine ⟨(if k = i then RedisQueue.getMetrics T st σ.db else id) q, ?_, ?_⟩
        · apply List.mem_of_getElem? (i := i)
          simp only [step, List.getElem?_modify, hi]
          split_ifs <;> rfl
        · split_ifs <;> exact hne

theorem instances_after_of_no_request {σ : ModeRun M} {as : List ModeAction}
    (h : requests as = []) (hnil : σ.instances = []) :
    (σ.after T st as).instances = [] := by
  induction as generalizing σ with
  | nil => exact hnil
  | cons a as ih =>
    cases a with
    | new queueOpts => simp [requests, ModeAction.request] at h
    | getMetrics k => exact ih h (by simp [step, hnil])

/-- Without a stored mode, all instances being on the stream: the calls to come agree just
if none of them asks for `PubSub`, or the first one does and there is no instance yet. -/
theorem agreed_after_iff_of_absent {σ : ModeRun M} {metrics : QueueMetrics}
    (h : Reads T st σ.db false metrics) (hall : ∀ q ∈ σ.instances, Uniform .stream q)
    (as : List ModeAction) :
    (σ.after T st as).Agreed T st ↔
      some .pubSub ∉ requests as ∨
        (σ.instances = [] ∧ (requests as).head? = some (some .pubSub)) := by
  have hstream := eventMode_of_not_exists T st h.field h.read
  induction as generalizing σ with
  | nil =>
    have hagreed := agreed_of_uniform h (by rwa [hstream])
    simpa [requests] using hagreed
  | cons a as ih =>
    rw [after_cons]
    cases a with
    | new queueOpts =>
      have hrequests : requests (.new queueOpts :: as) =
          (queueOpts.getD {}).eventMode :: requests as := rfl
      rw [hrequests]
      by_cases hreq : (queueOpts.getD {}).eventMode = some .pubSub
      · rw [hreq]
        have hreads : Reads T st (σ.step T st (.new queueOpts)).db true
            { metrics with eventMode := .pubSub } := by
          simpa only [step, new_stores h hreq] using reads_setEventMode h .pubSub
        by_cases hnil : σ.instances = []
        · apply iff_of_true
          · apply agreed_after_of_present hreads
            simp [step, new_stores h hreq, hnil, Uniform, RedisQueue.eventMode]
          · exact Or.inr ⟨hnil, rfl⟩
        · -- the instances that are there listen to the stream
          obtain ⟨q, hq⟩ := List.exists_mem_of_ne_nil _ hnil
          apply iff_of_false
          · apply not_agreed_after_of_deaf hreads
            exact ⟨q, List.mem_append_left _ hq, by simp [(hall q hq).1]⟩
          · simp [hnil]
      · have hstep : σ.step T st (.new queueOpts) =
            ⟨σ.db, σ.instances ++ [⟨metrics, metrics.eventMode⟩]⟩ := by
          simp only [step, new_keeps h queueOpts (Or.inr hreq)]
        have hstreams : ∀ q ∈ σ.instances ++ [⟨metrics, metrics.eventMode⟩],
            Uniform .stream q := forall_mem_concat hall ⟨hstream, hstream⟩
        have hrest := ih (σ := ⟨σ.db, σ.instances ++ [⟨metrics, metrics.eventMode⟩]⟩) h hstreams
        rw [hstep]
        apply hrest.trans
        simp [hreq, Ne.symm hreq]
    | getMetrics k =>
      have hnil : (σ.step T st (.getMetrics k)).instances = [] ↔ σ.instances = [] := by
        simp [step, ← List.length_eq_zero_iff]
      have hstreams : ∀ q ∈ (σ.step T st (.getMetrics k)).instances, Uniform .stream q := by
        apply forall_mem_modify k hall
        intro q hq
        exact ⟨hq.1, (eventMode_getMetrics h q).trans hstream⟩
      have hrest := ih (σ := σ.step T st (.getMetrics k)) h hstreams
      rw [hnil] at hrest
      exact hrest

theorem getMetrics_new_eq_none {db : Database Text M} (h : st.getMetrics T db = none)
    (queueOpts : Option QueueOpts) :
    st.getMetrics T (RedisQueue.new T st queueOpts db).2 = none := by
  cases hexists : st.metadataFieldExists T db "event_mode" with
  | true =>
    have hdb : (RedisQueue.new T st queueOpts db).2 = db := by
      simp only [RedisQueue.new, hexists]
      cases (queueOpts.getD {}).eventMode <;> rfl
    rw [hdb, h]
  | false =>
    have hnone : db.hget (st.metaKey T) "event_mode" = none := by
      simpa [RedisStore.metadataFieldExists, Server.hexists] using hexists
    have hproc : RedisStore.readField (parseUnsigned 64) (db.hget (st.metaKey T) "processing") =
        none := by
      cases hread : RedisStore.readField (parseUnsigned 64)
          (db.hget (st.metaKey T) "processing") with
      | none => rfl
      | some processing =>
        have hmode : RedisStore.readField QueueEventMode.ofText none = some none := rfl
        simp [RedisStore.getMetrics, hread, hnone, hmode] at h
    have hset : ∀ mode, st.getMetrics T (st.setEventMode T db mode) = none := by
      intro mode
      simp only [RedisStore.getMetrics, hget_setEventMode T st db mode "processing" (by decide),
        hproc, Option.bind_none]
    simp only [RedisQueue.new, hexists]
    cases (queueOpts.getD {}).eventMode with
    | none => exact h
    | some passed =>
      simp only
      split_ifs
      · exact hset passed
      · exact h

theorem not_agreed_after_of_unreadable {σ : ModeRun M} (h : st.getMetrics T σ.db = none)
    {as : List ModeAction} (hsome : σ.instances ≠ [] ∨ requests as ≠ []) :
    ¬ (σ.after T st as).Agreed T st := by
  induction as generalizing σ with
  | nil =>
    obtain ⟨q, hq⟩ := List.exists_mem_of_ne_nil _ (hsome.resolve_right (by simp [requests]))
    intro hagreed
    have hstored := (hagreed q hq).2
    rw [after_nil, storedMode, h] at hstored
    simp at hstored
  | cons a as ih =>
    cases a with
    | new queueOpts =>
      apply ih
      · exact getMetrics_new_eq_none h queueOpts
      · simp [step]
    | getMetrics k =>
      apply ih
      · exact h
      · rcases hsome with hne | hne
        · left
          simpa [step, ← List.length_eq_zero_iff] using hne
        · exact Or.inr hne

/-- Any number of calls of `Queue::new` with any options: in the end all instances, their
listeners and the store agree on the mode just if there was no call, or the metadata can be
read and a mode was stored before, nobody asks for `PubSub`, or the first call does. -/
theorem agreed_iff (T : CaseTable) (st : RedisStore) (db : Database Text M)
    (as : List ModeAction) :
    (after T st ⟨db, []⟩ as).Agreed T st ↔
      requests as = [] ∨ ((st.getMetrics T db).isSome = true ∧
        (st.metadataFieldExists T db "event_mode" = true ∨ some .pubSub ∉ requests as ∨
          (requests as).head? = some (some .pubSub))) := by
  cases hread : st.getMetrics T db with
  | none =>
    by_cases hnil : requests as = []
    · have hempty : (after T st ⟨db, []⟩ as).instances = [] :=
        instances_after_of_no_request hnil rfl
      simp [hnil, Agreed, hempty]
    · have hnot := not_agreed_after_of_unreadable (σ := ⟨db, []⟩) hread (Or.inr hnil)
      simp [hnil, hnot]
  | some metrics =>
    cases hfield : st.metadataFieldExists T db "event_mode" with
    | true =>
      have hagreed := agreed_after_of_present (σ := ⟨db, []⟩) ⟨hfield, hread⟩ (by simp) as
      simp [hagreed]
    | false =>
      have hiff := agreed_after_iff_of_absent (σ := ⟨db, []⟩) ⟨hfield, hread⟩ (by simp) as
      simp only [hiff, true_and, Option.isSome_some, Bool.false_eq_true, false_or]
      constructor
      · exact Or.inr
      · rintro (hnil | hrest)
        · exact Or.inl (by simp [hnil])
        · exact hrest

def emptyDb : Database Text Unit := ⟨Server.empty, fun _ => []⟩

def mail : RedisStore := RedisStore.new none "mail"

/-- The first call takes the default options, the second asks for `PubSub`: the listener of
the first instance stays on the stream. -/
theorem defaultFirst_not_agreed :
    ((after .ascii mail ⟨emptyDb, []⟩ [.new none, .new (some { eventMode := some .pubSub })]
        ).instances.map fun q => (q.eventMode, q.listenerMode)) =
        [(.stream, .stream), (.pubSub, .pubSub)] ∧
      ¬ (after .ascii mail ⟨emptyDb, []⟩
        [.new none, .new (some { eventMode := some .pubSub })]).Agreed .ascii mail := by
  unfold Agreed
  decide +kernel

end ModeRun

end Kiomq
