import Kiomq.Foundations.Json
import Kiomq.Redis.Metrics

/-!
# Events on the Redis stream

In stream mode `publish_event` writes the fields of an event as texts, after it has dropped
those whose text contains `null`. The listener reads each field by a rule of its own. The
fields that are written and read in the same way come back unless their text was dropped,
which also happens to texts that merely contain the word. A name would come back in quotes.
-/

namespace Kiomq

open Foundations Redis

variable {R P : Type}

/-! ### States as texts -/

namespace JobState

def word : JobState → List Char
  | .wait => "wait".toList
  | .prioritized => "prioritized".toList
  | .stalled => "stalled".toList
  | .active => "active".toList
  | .paused => "paused".toList
  | .resumed => "resumed".toList
  | .completed => "completed".toList
  | .failed => "failed".toList
  | .delayed => "delayed".toList
  | .progress => "progress".toList
  | .obliterated => "obliterated".toList
  | .processing => "processing".toList

def all : List JobState :=
  [.wait, .prioritized, .stalled, .active, .paused, .resumed, .completed, .failed, .delayed,
    .progress, .obliterated, .processing]

def json (state : JobState) : List Char := jsonString state.word

def ofWord (word : List Char) : Option JobState := all.find? fun state => state.word = word

/-- `from_redis_value`: the name in any case of its letters, or else a JSON text. -/
def ofText (text : List Char) : Option JobState :=
  (ofWord (text.map Char.toLower)).or ((parseString text).bind ofWord)

theorem ofWord_word (state : JobState) : ofWord state.word = some state := by
  cases state <;> decide

theorem ofWord_quote (rest : List Char) : ofWord ('"' :: rest) = none := by
  rw [ofWord, List.find?_eq_none]
  intro state _ hword
  have hhead : state.word.head? ≠ some '"' := by cases state <;> decide
  rw [of_decide_eq_true hword] at hhead
  exact hhead rfl

theorem ofText_json (state : JobState) : ofText state.json = some state := by
  have hquote : ofWord (state.json.map Char.toLower) = none := ofWord_quote _
  rw [ofText, hquote, json, parseString_jsonString, Option.bind_some, ofWord_word]
  rfl

/-- The names with a `u` have no `n`. -/
theorem not_null_json (state : JobState) : ¬ nullText <:+: state.json := by
  intro h
  have hn : 'n' ∈ state.json := h.subset (by decide)
  have hu : 'u' ∈ state.json := h.subset (by decide)
  revert hn hu
  cases state <;> decide

end JobState

/-! ### The fields of an event -/

inductive EventKey
  | id
  | priority
  | event
  | delay
  | prev
  | jobId
  | returnedValue
  | failedReason
  | data
  | name
  | workerId
  | metrics
  deriving DecidableEq

namespace EventKey

def all : List EventKey :=
  [.id, .priority, .event, .delay, .prev, .jobId, .returnedValue, .failedReason, .data, .name,
    .workerId, .metrics]

def written : EventKey → String
  | .id => "id"
  | .priority => "priority"
  | .event => "event"
  | .delay => "delay"
  | .prev => "prev"
  | .jobId => "job_id"
  | .returnedValue => "returned_value"
  | .failedReason => "failed_reason"
  | .data => "data"
  | .name => "name"
  | .workerId => "worker_id"
  | .metrics => "metrics"

def spellings : List (List Char × EventKey) :=
  [("job_id".toList, .jobId), ("jobid".toList, .jobId), ("name".toList, .name),
    ("delay".toList, .delay), ("worker_id".toList, .workerId), ("workerid".toList, .workerId),
    ("priority".toList, .priority), ("data".toList, .data),
    ("returnedvalue".toList, .returnedValue), ("returned_value".toList, .returnedValue),
    ("failedreason".toList, .failedReason), ("failed_reason".toList, .failedReason),
    ("event".toList, .event), ("prev".toList, .prev), ("metrics".toList, .metrics),
    ("Metrics".toList, .metrics)]

def ofKey (key : String) : Option EventKey := spellings.lookup (key.toList.map Char.toLower)

theorem ofKey_written {k : EventKey} (h : k ≠ .id) : ofKey k.written = some k := by
  cases k with
  | id => exact absurd rfl h
  | _ => decide +kernel

theorem written_ne_id {k : EventKey} (h : k ≠ .id) : k.written ≠ "id" := by
  cases k with
  | id => exact absurd rfl h
  | _ => decide

end EventKey

/-- The codecs of the fields that are written as JSON values of their own. -/
structure EventCodec (R P : Type) where
  result : Codec R
  progress : Codec P
  failure : Codec FailedDetails
  worker : Codec Uuid
  metrics : Codec JobMetrics

def numberText : Option ℕ → List Char
  | none => nullText
  | some n => Nat.toDigits 10 n

namespace EventCodec

/-- The text of a field; `idText` is that of the stream id, which is not sent. -/
def text (codec : EventCodec R P) (idText : List Char) (event : QueueStreamEvent R P) :
    EventKey → List Char
  | .id => idText
  | .priority => numberText event.priority
  | .event => event.event.json
  | .delay => numberText event.delay
  | .prev => event.prev.elim nullText JobState.json
  | .jobId => Nat.toDigits 10 event.jobId
  | .returnedValue => codec.result.prettyOption event.returnedValue
  | .failedReason => codec.failure.prettyOption event.failedReason
  | .data => codec.progress.prettyOption event.progressData
  | .name => Codec.string.prettyOption event.name
  | .workerId => codec.worker.prettyOption event.workerId
  | .metrics => codec.metrics.prettyOption event.metrics

def serializeIntoPairs (codec : EventCodec R P) (idText : List Char)
    (event : QueueStreamEvent R P) : List (String × String) :=
  EventKey.all.map fun k => (k.written, String.ofList (codec.text idText event k))

/-- What is sent: not the id, and no text that contains `null`. -/
def streamItems (codec : EventCodec R P) (idText : List Char) (event : QueueStreamEvent R P) :
    List (String × String) :=
  ((codec.serializeIntoPairs idText event).filter fun item => item.1 ≠ "id").filter fun item =>
    ¬ nullText <:+: item.2.toList

/-- Set a field of the event from its text; `none` is an error. -/
def assign (codec : EventCodec R P) (event : QueueStreamEvent R P) (text : List Char) :
    EventKey → Option (QueueStreamEvent R P)
  | .id => some event
  | .jobId => (parseUnsigned 64 text).map fun jobId => { event with jobId }
  | .name => some { event with name := some (String.ofList text) }
  | .delay => (parseUnsigned 64 text).map fun n => { event with delay := some n }
  | .workerId => (codec.worker.decodeOption text).map fun workerId => { event with workerId }
  | .priority => (parseUnsigned 64 text).map fun n => { event with priority := some n }
  | .data => (codec.progress.decodeOption text).map fun data => { event with progressData := data }
  | .returnedValue =>
    (codec.result.decodeOption text).map fun returnedValue => { event with returnedValue }
  | .failedReason =>
    (codec.failure.decodeOption text).map fun failedReason => { event with failedReason }
  | .event => (JobState.ofText text).map fun state => { event with event := state }
  | .prev => (JobState.ofText text).map fun state => { event with prev := some state }
  | .metrics => (codec.metrics.decodeOption text).map fun metrics => { event with metrics }

def readItem (codec : EventCodec R P) (event : QueueStreamEvent R P) (item : String × String) :
    Option (QueueStreamEvent R P) :=
  match EventKey.ofKey item.1 with
  | some k => codec.assign event item.2.toList k
  | none => some event

/-- `TryFrom<&mut StreamId>`, up to the id. -/
def tryFrom (codec : EventCodec R P) (items : List (String × String)) :
    Option (QueueStreamEvent R P) :=
  items.foldlM codec.readItem {}

end EventCodec

/-! ### What listeners are given -/

/-- The payload of an event; durations are in milliseconds. -/
inductive EventParameters (R P : Type)
  | prioritized (jobId : ℕ) (name : Option String) (priority : ℕ)
  | added (jobId : ℕ) (name : Option String)
  | waitingToRun (jobId : ℕ) (prevState : Option JobState)
  | delayed (jobId : ℕ) (delay : ℕ)
  | active (jobId : ℕ) (prevState : Option JobState)
  | completed (jobId : ℕ) (jobMetrics : JobMetrics) (expectedDelay : ℕ)
      (prevState : Option JobState) (result : R)
  | void
  | progress (jobId : ℕ) (data : P)
  | stalled (jobId : ℕ) (prevState : JobState)
  | failed (reason : FailedDetails) (jobId : ℕ) (prevState : JobState)
  | processing (workerId : Uuid) (jobId : ℕ) (status : JobState)

/-- `from_queue_event`; `none` is a panic. -/
def EventParameters.fromQueueEvent (event : QueueStreamEvent R P) :
    Option (EventParameters R P) :=
  match event.event with
  | .prioritized => some (.prioritized event.jobId event.name (event.priority.getD 0))
  | .wait =>
    if event.prev.isNone then some (.added event.jobId event.name)
    else some (.waitingToRun event.jobId event.prev)
  | .stalled => some (.stalled event.jobId (event.prev.getD default))
  | .active => some (.active event.jobId event.prev)
  | .paused => some .void
  | .resumed => some .void
  | .obliterated => some .void
  | .completed =>
    let jobMetrics := event.metrics.getD {}
    event.returnedValue.map (.completed event.jobId jobMetrics jobMetrics.delay event.prev)
  | .failed =>
    some (.failed (event.failedReason.getD ⟨0, ""⟩) event.jobId (event.prev.getD default))
  | .delayed => some (.delayed event.jobId (event.delay.getD 0))
  | .progress => event.progressData.map (.progress event.jobId)
  | .processing =>
    some (.processing (event.workerId.getD 0) event.jobId (event.prev.getD default))

namespace RedisStore

variable {V : Type}

def eventsKey (T : CaseTable) (st : RedisStore) : Key :=
  CollectionSuffix.events.toCollectionName T st.keyPrefix st.name

def publishEvent (T : CaseTable) (codec : EventCodec R P) (st : RedisStore)
    (eventMode : QueueEventMode) (idText : List Char) (event : QueueStreamEvent R P)
    (r : Server V (QueueStreamEvent R P)) : Server V (QueueStreamEvent R P) :=
  match eventMode with
  | .pubSub => r.exec (.publish (st.eventsKey T) event)
  | .stream => r.exec (.xadd (st.eventsKey T) (codec.streamItems idText event))

end RedisStore

namespace EventCodec

/-- The entry that `publish_event` adds to the stream is read as the same event, from which
the listeners are served without a panic. -/
def Survives (T : CaseTable) (codec : EventCodec R P) (st : RedisStore) (idText : List Char)
    (event : QueueStreamEvent R P) (r : Server (List Char) (QueueStreamEvent R P)) : Prop :=
  ∃ items read, ((st.publishEvent T codec .stream idText event r).streams
      (st.eventsKey T)).getLast? = some items ∧
    codec.tryFrom items = some read ∧ read = event ∧
    (EventParameters.fromQueueEvent read).isSome = true

/-- The numbers of the event are of type `u64`. -/
def Fits (event : QueueStreamEvent R P) : Prop :=
  event.jobId < 2 ^ 64 ∧ (∀ n ∈ event.priority, n < 2 ^ 64) ∧ ∀ n ∈ event.delay, n < 2 ^ 64

def payloads (codec : EventCodec R P) (event : QueueStreamEvent R P) : List (List Char) :=
  (event.returnedValue.map codec.result.pretty).toList ++
    (event.failedReason.map codec.failure.pretty).toList ++
    (event.progressData.map codec.progress.pretty).toList ++
    (event.workerId.map codec.worker.pretty).toList ++
    (event.metrics.map codec.metrics.pretty).toList

/-! ### What comes back of each field -/

section Fields

variable {α β : Type}

def kept (c : Codec α) (o : Option α) : Option α := o.filter fun a => ¬ nullText <:+: c.pretty a

theorem forall_mem_text_iff (c : Codec α) (o : Option α) :
    (∀ text ∈ (o.map c.pretty).toList, ¬ nullText <:+: text) ↔ kept c o = o := by
  cases o with
  | none => simp [kept]
  | some a => by_cases h : nullText <:+: c.pretty a <;> simp [kept, Option.filter, h]

theorem sent_option (c : Codec α) (o old : Option α) (put : Option α → β) :
    (if ¬ nullText <:+: c.prettyOption o then (c.decodeOption (c.prettyOption o)).map put
      else some (put old)) = some (put ((kept c o).or old)) := by
  cases o with
  | none => simp [Codec.prettyOption, kept]
  | some a =>
    by_cases h : nullText <:+: c.pretty a
    · simp [Codec.prettyOption, kept, Option.filter, h]
    · have hne : c.pretty a ≠ nullText := by
        intro heq
        exact h (heq ▸ List.infix_rfl)
      simp [Codec.prettyOption, kept, Option.filter, h, c.decodeOption_pretty hne]

theorem sent_number (o old : Option ℕ) (put : Option ℕ → β) (h : ∀ n ∈ o, n < 2 ^ 64) :
    (if ¬ nullText <:+: numberText o then
        (parseUnsigned 64 (numberText o)).map fun n => put (some n)
      else some (put old)) = some (put (o.or old)) := by
  cases o with
  | none => simp [numberText]
  | some n =>
    have hparse := parseUnsigned_toDigits (h n rfl)
    simp only [numberText, not_null_toDigits, not_false_eq_true, if_true, hparse]
    rfl

theorem sent_state (o old : Option JobState) (put : Option JobState → β) :
    (if ¬ nullText <:+: o.elim nullText JobState.json then
        (JobState.ofText (o.elim nullText JobState.json)).map fun state => put (some state)
      else some (put old)) = some (put (o.or old)) := by
  cases o with
  | none => simp
  | some state =>
    simp only [Option.elim_some, state.not_null_json, not_false_eq_true, if_true,
      state.ofText_json]
    rfl

end Fields

/-- The event after its field `k` has been sent and read. -/
def comesBack (codec : EventCodec R P) (event acc : QueueStreamEvent R P) :
    EventKey → QueueStreamEvent R P
  | .id => acc
  | .priority => { acc with priority := event.priority.or acc.priority }
  | .event => { acc with event := event.event }
  | .delay => { acc with delay := event.delay.or acc.delay }
  | .prev => { acc with prev := event.prev.or acc.prev }
  | .jobId => { acc with jobId := event.jobId }
  | .returnedValue =>
    { acc with returnedValue := (kept codec.result event.returnedValue).or acc.returnedValue }
  | .failedReason =>
    { acc with failedReason := (kept codec.failure event.failedReason).or acc.failedReason }
  | .data =>
    { acc with progressData := (kept codec.progress event.progressData).or acc.progressData }
  | .name =>
    { acc with
      name := ((kept .string event.name).map fun n => String.ofList (jsonString n.toList)).or
        acc.name }
  | .workerId => { acc with workerId := (kept codec.worker event.workerId).or acc.workerId }
  | .metrics => { acc with metrics := (kept codec.metrics event.metrics).or acc.metrics }

theorem sent_key (codec : EventCodec R P) (idText : List Char) {event : QueueStreamEvent R P}
    (hfits : Fits event) (acc : QueueStreamEvent R P) {k : EventKey} (hk : k ≠ .id) :
    (if ¬ nullText <:+: codec.text idText event k then
        codec.assign acc (codec.text idText event k) k
      else some acc) = some (codec.comesBack event acc k) := by
  cases k with
  | id => exact absurd rfl hk
  | priority =>
    exact sent_number event.priority acc.priority (fun priority => { acc with priority })
      hfits.2.1
  | event =>
    simp only [text, event.event.not_null_json, not_false_eq_true, if_true, assign,
      event.event.ofText_json]
    rfl
  | delay => exact sent_number event.delay acc.delay (fun delay => { acc with delay }) hfits.2.2
  | prev => exact sent_state event.prev acc.prev fun prev => { acc with prev }
  | jobId =>
    simp only [text, not_null_toDigits, not_false_eq_true, if_true, assign,
      parseUnsigned_toDigits hfits.1]
    rfl
  | returnedValue =>
    exact sent_option codec.result event.returnedValue acc.returnedValue
      fun returnedValue => { acc with returnedValue }
  | failedReason =>
    exact sent_option codec.failure event.failedReason acc.failedReason
      fun failedReason => { acc with failedReason }
  | data =>
    exact sent_option codec.progress event.progressData acc.progressData
      fun data => { acc with progressData := data }
  | name =>
    -- the name is not decoded
    cases hname : event.name with
    | none => simp [text, hname, Codec.prettyOption, comesBack, kept]
    | some n =>
      by_cases h : nullText <:+: jsonString n.toList
      · simp [text, hname, Codec.prettyOption, Codec.string, comesBack, kept, Option.filter, h]
      · simp [text, hname, Codec.prettyOption, Codec.string, comesBack, kept, Option.filter, h,
          assign]
  | workerId =>
    exact sent_option codec.worker event.workerId acc.workerId
      fun workerId => { acc with workerId }
  | metrics =>
    exact sent_option codec.metrics event.metrics acc.metrics fun metrics => { acc with metrics }

theorem tryFrom_streamItems (codec : EventCodec R P) (idText : List Char)
    {event : QueueStreamEvent R P} (hfits : Fits event) :
    codec.tryFrom (codec.streamItems idText event) =
      some (EventKey.all.foldl (codec.comesBack event) {}) := by
  have hfold : ∀ (keys : List EventKey) (acc : QueueStreamEvent R P),
      (((keys.map fun k => (k.written, String.ofList (codec.text idText event k))).filter
          fun item => item.1 ≠ "id").filter fun item =>
            ¬ nullText <:+: item.2.toList).foldlM codec.readItem acc =
        some (keys.foldl (codec.comesBack event) acc) := by
    intro keys
    induction keys with
    | nil => exact fun acc => rfl
    | cons k keys ih =>
      intro acc
      by_cases hk : k = .id
      · subst hk
        rw [List.map_cons, List.filter_cons_of_neg (by simp [EventKey.written])]
        exact ih acc
      · have hwritten := EventKey.written_ne_id hk
        have hkey := codec.sent_key idText hfits acc hk
        rw [List.map_cons, List.filter_cons_of_pos (by simpa using hwritten), List.foldl_cons,
          ← ih (codec.comesBack event acc k)]
        by_cases hnull : nullText <:+: codec.text idText event k
        · rw [if_neg (not_not.mpr hnull)] at hkey
          rw [List.filter_cons_of_neg (by simpa using hnull), ← Option.some.inj hkey]
        · rw [if_pos hnull] at hkey
          rw [List.filter_cons_of_pos (by simpa using hnull), List.foldlM_cons, readItem,
            EventKey.ofKey_written hk]
          simp only [String.toList_ofList, hkey]
          rfl
  exact hfold EventKey.all {}

theorem comesBack_eq_iff (codec : EventCodec R P) (event : QueueStreamEvent R P) :
    EventKey.all.foldl (codec.comesBack event) {} = event ↔
      event.name = none ∧ ∀ text ∈ codec.payloads event, ¬ nullText <:+: text := by
  have hname : ((kept .string event.name).map fun n => String.ofList (jsonString n.toList)) =
      event.name ↔ event.name = none := by
    cases event.name with
    | none => simp [kept]
    | some n =>
      -- the text in quotes is longer than the name
      have hne : String.ofList (jsonString n.toList) ≠ n := by
        intro heq
        have hlength := length_lt_length_jsonString n.toList
        rw [← String.toList_ofList (l := jsonString n.toList), heq] at hlength
        exact absurd hlength (lt_irrefl _)
      by_cases h : nullText <:+: Codec.string.pretty n <;>
        simp [kept, Option.filter, h, hne]
  have hpayloads : (∀ text ∈ codec.payloads event, ¬ nullText <:+: text) ↔
      kept codec.result event.returnedValue = event.returnedValue ∧
        kept codec.failure event.failedReason = event.failedReason ∧
        kept codec.progress event.progressData = event.progressData ∧
        kept codec.worker event.workerId = event.workerId ∧
        kept codec.metrics event.metrics = event.metrics := by
    simp only [payloads, List.forall_mem_append, forall_mem_text_iff, and_assoc]
  rw [hpayloads]
  cases event with
  | mk priority state delay prev jobId returnedValue failedReason progressData name workerId
      metrics =>
    simp only [EventKey.all, List.foldl_cons, List.foldl_nil, comesBack, Option.or_none,
      QueueStreamEvent.mk.injEq, true_and] at hname ⊢
    rw [hname]
    tauto

/-- For every event whose listeners can be served: it survives the stream just if it has no
name and none of its payloads has a text with `null` in it. -/
theorem survives_iff (T : CaseTable) (codec : EventCodec R P) (st : RedisStore)
    (idText : List Char) (event : QueueStreamEvent R P)
    (r : Server (List Char) (QueueStreamEvent R P)) (hfits : Fits event)
    (hserved : (EventParameters.fromQueueEvent event).isSome = true) :
    codec.Survives T st idText event r ↔
      event.name = none ∧ ∀ text ∈ codec.payloads event, ¬ nullText <:+: text := by
  have hitems : ((st.publishEvent T codec .stream idText event r).streams
      (st.eventsKey T)).getLast? = some (codec.streamItems idText event) := by
    simp [RedisStore.publishEvent, Server.exec]
  have hread := codec.tryFrom_streamItems idText hfits
  rw [← comesBack_eq_iff]
  constructor
  · rintro ⟨items, read, hlast, htry, rfl, -⟩
    obtain rfl := Option.some.inj (hitems.symm.trans hlast)
    exact Option.some.inj (hread.symm.trans htry)
  · intro heq
    refine ⟨_, event, hitems, ?_, rfl, hserved⟩
    rw [hread, heq]

def failureOpen : List Char := "\x7b\n  \"run\": ".toList

def failureMiddle : List Char := ',' :: "\n  \"reason\": ".toList

def failureClose : List Char := "\n\x7d".toList

/-- The two fields of `FailedDetails` in the layout of the pretty printer. -/
def failureText (details : FailedDetails) : List Char :=
  failureOpen ++ (Nat.toDigits 10 details.run ++
    (failureMiddle ++ (jsonString details.reason.toList ++ failureClose)))

def readFailure (text : List Char) : Option FailedDetails :=
  let fields := text.drop failureOpen.length
  let digits := fields.takeWhile Char.isDigit
  let reason := (fields.drop digits.length).drop failureMiddle.length
  (parseDigits digits).bind fun run =>
    (parseString (reason.take (reason.length - failureClose.length))).map fun reason =>
      ⟨run, String.ofList reason⟩

theorem readFailure_failureText (details : FailedDetails) :
    readFailure (failureText details) = some details := by
  have hdigits : ∀ c ∈ Nat.toDigits 10 details.run, c.isDigit = true :=
    fun c hc => isDigit_of_mem_toDigits hc
  have htake : ∀ rest, (Nat.toDigits 10 details.run ++ (failureMiddle ++ rest)).takeWhile
      Char.isDigit = Nat.toDigits 10 details.run := by
    intro rest
    rw [List.takeWhile_append_of_pos hdigits, failureMiddle, List.cons_append,
      List.takeWhile_cons_of_neg (by decide), List.append_nil]
  have hclose : ∀ text : List Char,
      (text ++ failureClose).take ((text ++ failureClose).length - failureClose.length) = text := by
    intro text
    rw [List.length_append, Nat.add_sub_cancel, List.take_left]
  simp only [readFailure, failureText, List.drop_left, htake, hclose, parseDigits_toDigits,
    parseString_jsonString, Option.bind_some, Option.map_some, String.ofList_toList]

def failureCodec : Codec FailedDetails where
  pretty := failureText
  compact := failureText
  decode := readFailure
  decode_pretty details _ := readFailure_failureText details
  decode_compact details _ := readFailure_failureText details

theorem failureCodec_neverNull : failureCodec.NeverNull := by
  intro details
  have hne : failureText details ≠ nullText := by
    intro h
    have hmem : '\x7b' ∈ failureText details := List.mem_append_left _ (by decide)
    rw [h] at hmem
    exact absurd hmem (by decide)
  exact ⟨hne, hne⟩

/-- Results are strings; the ids of workers and the metrics are written as plain numbers. -/
def orderCodec : EventCodec String Unit where
  result := .string
  progress := .numbered (fun _ => 0) (fun _ => ()) fun _ => rfl
  failure := failureCodec
  worker := .numbered id id fun _ => rfl
  metrics := .numbered
    (fun m => Nat.pair m.ranFor (Nat.pair m.delayedFor (Nat.pair m.attempt
      (Nat.pair m.delay m.id))))
    (fun n => ⟨n.unpair.1, n.unpair.2.unpair.1, n.unpair.2.unpair.2.unpair.1,
      n.unpair.2.unpair.2.unpair.2.unpair.1, n.unpair.2.unpair.2.unpair.2.unpair.2⟩) (by simp)

def orderCompleted (result : String) : QueueStreamEvent String Unit :=
  { event := .completed, prev := some .active, jobId := 1, returnedValue := some result }

theorem shipped_survives :
    (EventParameters.fromQueueEvent (orderCompleted "shipped")).isSome = true ∧
      orderCodec.Survives .ascii (RedisStore.new none "mail") [] (orderCompleted "shipped")
        Server.empty :=
  ⟨rfl, (survives_iff .ascii orderCodec _ [] _ Server.empty (by simp [Fits, orderCompleted])
    rfl).mpr (by decide +kernel)⟩

/-- The result is dropped because of the letters in its middle, and the listener that takes
the event off the stream panics. -/
theorem annulled_not_survives :
    orderCodec.streamItems [] (orderCompleted "annulled") =
        [("event", "\"completed\""), ("prev", "\"active\""), ("job_id", "1")] ∧
      ((orderCodec.tryFrom (orderCodec.streamItems [] (orderCompleted "annulled"))).bind
        EventParameters.fromQueueEvent).isNone = true ∧
      ¬ orderCodec.Survives .ascii (RedisStore.new none "mail") [] (orderCompleted "annulled")
        Server.empty := by
  refine ⟨by decide +kernel, by decide +kernel, ?_⟩
  rintro ⟨items, read, hlast, htry, rfl, -⟩
  have hitems : items = orderCodec.streamItems [] (orderCompleted "annulled") := by
    simpa [RedisStore.publishEvent, Server.exec] using hlast.symm
  have hlost : ((orderCodec.tryFrom (orderCodec.streamItems [] (orderCompleted "annulled"))).map
      QueueStreamEvent.returnedValue) = some none := by decide +kernel
  rw [← hitems, htry] at hlost
  simp [orderCompleted] at hlost

end EventCodec

end Kiomq
