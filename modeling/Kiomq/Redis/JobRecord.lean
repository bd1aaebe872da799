import Kiomq.Foundations.Records
import Kiomq.Redis.StreamEvents

/-!
# The hash of a job

A job is inserted as a hash of nineteen fields, under the names that serde gives them.
`from_redis_value` reads the hash by a table and by rules of its own. Every field is read
back as it was written, if its codec does so and no value is written as the JSON null.
-/

namespace Kiomq

open Foundations Redis

variable {D R P : Type}

/-! ### The fields -/

inductive JobKey
  | id
  | timestamp
  | opts
  | name
  | queueName
  | state
  | token
  | progress
  | attemptsMade
  | delay
  | priority
  | data
  | returnedValue
  | stackTrace
  | logs
  | failedReason
  | processedOn
  | finishedOn
  | stalledCounter
  deriving DecidableEq

namespace JobKey

def all : List JobKey :=
  [.id, .timestamp, .name, .state, .progress, .attemptsMade, .opts, .delay, .data,
    .returnedValue, .stackTrace, .failedReason, .processedOn, .finishedOn, .queueName, .token,
    .stalledCounter, .logs, .priority]

/-- The name that serde writes. -/
def written : JobKey → String
  | .id => "id"
  | .timestamp => "timestamp"
  | .opts => "opts"
  | .name => "name"
  | .queueName => "queueName"
  | .state => "state"
  | .token => "token"
  | .progress => "progress"
  | .attemptsMade => "attemptsMade"
  | .delay => "delay"
  | .priority => "priority"
  | .data => "data"
  | .returnedValue => "returnedValue"
  | .stackTrace => "stackTrace"
  | .logs => "logs"
  | .failedReason => "failedReason"
  | .processedOn => "processedOn"
  | .finishedOn => "finishedOn"
  | .stalledCounter => "stalledCounter"

/-- The spellings that `from_redis_value` knows. -/
def spellings : List (String × JobKey) :=
  [("id", .id), ("timestamp", .timestamp), ("opts", .opts), ("name", .name),
    ("queuename", .queueName), ("queueName", .queueName), ("state", .state), ("token", .token),
    ("progress", .progress), ("attemptsmade", .attemptsMade), ("attemptsMade", .attemptsMade),
    ("delay", .delay), ("priority", .priority), ("data", .data),
    ("returnedvalue", .returnedValue), ("returnedValue", .returnedValue),
    ("stacktrace", .stackTrace), ("stackTrace", .stackTrace), ("logs", .logs),
    ("failedreason", .failedReason), ("failedReason", .failedReason),
    ("processedon", .processedOn), ("processedOn", .processedOn),
    ("finishedon", .finishedOn), ("finishedOn", .finishedOn),
    ("stalledcounter", .stalledCounter), ("stalledCounter", .stalledCounter)]

def ofName (name : String) : Option JobKey := spellings.lookup name

theorem ofName_written (k : JobKey) : ofName k.written = some k := by
  cases k <;> decide +kernel

theorem mem_all (k : JobKey) : k ∈ all := by
  cases k <;> decide

def Component (D R P : Type) : JobKey → Type
  | .id => Option ℕ
  | .timestamp => Dt
  | .opts => JobOptions
  | .name => String
  | .queueName => Option String
  | .state => JobState
  | .token => Option JobToken
  | .progress => Option P
  | .attemptsMade => ℕ
  | .delay => ℕ
  | .priority => ℕ
  | .data => Option D
  | .returnedValue => Option R
  | .stackTrace => List Trace
  | .logs => List String
  | .failedReason => Option FailedDetails
  | .processedOn => Option Dt
  | .finishedOn => Option Dt
  | .stalledCounter => ℕ

end JobKey

namespace Job

def get (job : Job D R P) : (k : JobKey) → JobKey.Component D R P k
  | .id => job.id
  | .timestamp => job.ts
  | .opts => job.opts
  | .name => job.name
  | .queueName => job.queueName
  | .state => job.state
  | .token => job.token
  | .progress => job.progress
  | .attemptsMade => job.attemptsMade
  | .delay => job.delay
  | .priority => job.priority
  | .data => job.data
  | .returnedValue => job.returnedValue
  | .stackTrace => job.stackTrace
  | .logs => job.logs
  | .failedReason => job.failedReason
  | .processedOn => job.processedOn
  | .finishedOn => job.finishedOn
  | .stalledCounter => job.stalledCounter

def put (job : Job D R P) : (k : JobKey) → JobKey.Component D R P k → Job D R P
  | .id, v => { job with id := v }
  | .timestamp, v => { job with ts := v }
  | .opts, v => { job with opts := v }
  | .name, v => { job with name := v }
  | .queueName, v => { job with queueName := v }
  | .state, v => { job with state := v }
  | .token, v => { job with token := v }
  | .progress, v => { job with progress := v }
  | .attemptsMade, v => { job with attemptsMade := v }
  | .delay, v => { job with delay := v }
  | .priority, v => { job with priority := v }
  | .data, v => { job with data := v }
  | .returnedValue, v => { job with returnedValue := v }
  | .stackTrace, v => { job with stackTrace := v }
  | .logs, v => { job with logs := v }
  | .failedReason, v => { job with failedReason := v }
  | .processedOn, v => { job with processedOn := v }
  | .finishedOn, v => { job with finishedOn := v }
  | .stalledCounter, v => { job with stalledCounter := v }

theorem get_put_self (job : Job D R P) (k : JobKey) (v : JobKey.Component D R P k) :
    (job.put k v).get k = v := by
  cases k <;> rfl

theorem get_put_of_ne (job : Job D R P) (k : JobKey) (v : JobKey.Component D R P k) (k' : JobKey)
    (h : k' ≠ k) : (job.put k v).get k' = job.get k' := by
  cases k <;> cases k' <;> first | rfl | exact absurd rfl h

theorem ext_get (job job' : Job D R P) (h : ∀ k, job.get k = job'.get k) : job = job' := by
  cases job with
  | mk id ts name state progress attemptsMade opts delay data returnedValue stackTrace
      failedReason processedOn finishedOn queueName token stalledCounter logs priority =>
    obtain rfl : id = _ := h .id
    obtain rfl : ts = _ := h .timestamp
    obtain rfl : name = _ := h .name
    obtain rfl : state = _ := h .state
    obtain rfl : progress = _ := h .progress
    obtain rfl : attemptsMade = _ := h .attemptsMade
    obtain rfl : opts = _ := h .opts
    obtain rfl : delay = _ := h .delay
    obtain rfl : data = _ := h .data
    obtain rfl : returnedValue = _ := h .returnedValue
    obtain rfl : stackTrace = _ := h .stackTrace
    obtain rfl : failedReason = _ := h .failedReason
    obtain rfl : processedOn = _ := h .processedOn
    obtain rfl : finishedOn = _ := h .finishedOn
    obtain rfl : queueName = _ := h .queueName
    obtain rfl : token = _ := h .token
    obtain rfl : stalledCounter = _ := h .stalledCounter
    obtain rfl : logs = _ := h .logs
    obtain rfl : priority = _ := h .priority
    rfl

end Job

/-! ### Their texts -/

/-- The codecs of the fields that are JSON values of their own. The options need not all
be readable: those that are, are read back as they were written. -/
structure JobCodec (D R P : Type) where
  options : JobOptions → Text
  readOptions : Text → Option JobOptions
  data : Codec D
  result : Codec R
  progress : Codec P
  traces : Codec (List Trace)
  failure : Codec FailedDetails
  token : Codec JobToken
  logs : Codec (List String)
  data_neverNull : data.NeverNull
  result_neverNull : result.NeverNull
  progress_neverNull : progress.NeverNull
  traces_neverNull : traces.NeverNull
  failure_neverNull : failure.NeverNull
  token_neverNull : token.NeverNull
  logs_neverNull : logs.NeverNull
  -- an empty text is not JSON
  traces_nil : traces.decode [] = none

def readNumber (text : Text) : Option (Option ℕ) :=
  if text = nullText then some none else (parseNumber 64 text).map some

/-- An optional time, which is read as a number of microseconds. -/
def readTime (text : Text) : Option (Option Dt) :=
  (readNumber text).map fun micros => micros.bind fun n => Dt.fromTimestampMicros (castSigned n)

namespace JobCodec

def pretty (codec : JobCodec D R P) : (k : JobKey) → JobKey.Component D R P k → Text
  | .id, v => numberText v
  | .timestamp, v => integerText v
  | .opts, v => codec.options v
  | .name, v => Codec.string.pretty v
  | .queueName, v => Codec.string.prettyOption v
  | .state, v => JobState.json v
  | .token, v => codec.token.prettyOption v
  | .progress, v => codec.progress.prettyOption v
  | .attemptsMade, v => Nat.toDigits 10 v
  | .delay, v => Nat.toDigits 10 v
  | .priority, v => Nat.toDigits 10 v
  | .data, v => codec.data.prettyOption v
  | .returnedValue, v => codec.result.prettyOption v
  | .stackTrace, v => codec.traces.pretty v
  | .logs, v => codec.logs.pretty v
  | .failedReason, v => codec.failure.prettyOption v
  | .processedOn, v => Option.elim v nullText integerText
  | .finishedOn, v => Option.elim v nullText integerText
  | .stalledCounter, v => Nat.toDigits 10 v

/-- The value that `from_redis_value` gives to a field; `none` is an error. A token that
cannot be read is no error. -/
def read (codec : JobCodec D R P) : (k : JobKey) → Text → Option (JobKey.Component D R P k)
  | .id, text => readNumber text
  | .timestamp, text => (readTime text).map fun t => t.getD 0
  | .opts, text => codec.readOptions text
  | .name, text => Codec.string.decode text
  | .queueName, text => Codec.string.decodeOption text
  | .state, text => JobState.ofText text
  | .token, text => some ((codec.token.decodeOption text).getD none)
  | .progress, text => codec.progress.decodeOption text
  | .attemptsMade, text => parseNumber 64 text
  | .delay, text => parseNumber 64 text
  | .priority, text => parseNumber 64 text
  | .data, text => codec.data.decodeOption text
  | .returnedValue, text => codec.result.decodeOption text
  | .stackTrace, text => codec.traces.decode text
  | .logs, text => codec.logs.decode text
  | .failedReason, text => codec.failure.decodeOption text
  | .processedOn, text => readTime text
  | .finishedOn, text => readTime text
  | .stalledCounter, text => parseNumber 64 text

def format (codec : JobCodec D R P) : RecordFormat (Job D R P) JobKey where
  Component := JobKey.Component D R P
  get := Job.get
  put := Job.put
  name := JobKey.written
  ofName := JobKey.ofName
  read := codec.read
  get_put_self := Job.get_put_self
  get_put_of_ne := Job.get_put_of_ne
  ext_get := Job.ext_get
  ofName_name := JobKey.ofName_written

def serializeIntoPairs (codec : JobCodec D R P) (job : Job D R P) : List (String × Text) :=
  JobKey.all.map fun k => (k.written, codec.pretty k (job.get k))

/-- `Job::from_redis_value` at the time `now`: the fields are read into a new job. -/
def fromRedisValue (codec : JobCodec D R P) (now : Dt) (fields : List (String × Text)) :
    Option (Job D R P) :=
  codec.format.readEntries (Job.new "" none none none now) fields

end JobCodec

/-! ### Every field of a new hash is read back -/

theorem readNumber_toDigits {n : ℕ} (h : n < 2 ^ 64) :
    readNumber (Nat.toDigits 10 n) = some (some n) := by
  rw [readNumber, if_neg (toDigits_ne_null n), parseNumber_toDigits h, Option.map_some]

theorem readNumber_numberText {o : Option ℕ} (h : ∀ n ∈ o, n < 2 ^ 64) :
    readNumber (numberText o) = some o := by
  cases o with
  | none => simp [readNumber, numberText]
  | some n => exact readNumber_toDigits (h n rfl)

theorem readTime_toDigits {n : ℕ} (h : n < 2 ^ 64) :
    readTime (Nat.toDigits 10 n) = some (Dt.fromTimestampMicros (castSigned n)) := by
  rw [readTime, readNumber_toDigits h]
  rfl

/-- A time of `chrono` that is not before the epoch. -/
def Dt.Representable (t : Dt) : Prop := 0 ≤ t ∧ t ≤ Dt.maxUtc

theorem readTime_integerText {t : Dt} (h : t.Representable) :
    readTime (integerText t) = some (some t) := by
  obtain ⟨h0, hmax⟩ := h
  obtain ⟨n, rfl⟩ := Int.eq_ofNat_of_zero_le h0
  have hn : n ≤ 8210266876799999999 := by
    unfold Dt.maxUtc at hmax
    exact_mod_cast hmax
  have hsigned : castSigned n = n := if_pos (by omega)
  have hrange : Dt.minUtc ≤ (n : ℤ) ∧ (n : ℤ) ≤ Dt.maxUtc := ⟨le_trans (by decide) h0, hmax⟩
  rw [integerText_natCast, readTime_toDigits (by omega), hsigned, Dt.fromTimestampMicros,
    if_pos hrange]

theorem readTime_option {o : Option Dt} (h : ∀ t ∈ o, Dt.Representable t) :
    readTime (o.elim nullText integerText) = some o := by
  cases o with
  | none => simp [readTime, readNumber]
  | some t => exact readTime_integerText (h t rfl)

/-- The numbers are of type `u64`, the times are not before the epoch, and the options can
be read. -/
structure Job.Fits (codec : JobCodec D R P) (job : Job D R P) : Prop where
  id : ∀ n ∈ job.id, n < 2 ^ 64
  attemptsMade : job.attemptsMade < 2 ^ 64
  delay : job.delay < 2 ^ 64
  priority : job.priority < 2 ^ 64
  stalledCounter : job.stalledCounter < 2 ^ 64
  ts : job.ts.Representable
  processedOn : ∀ t ∈ job.processedOn, Dt.Representable t
  finishedOn : ∀ t ∈ job.finishedOn, Dt.Representable t
  opts : codec.readOptions (codec.options job.opts) = some job.opts

namespace JobCodec

theorem read_pretty {codec : JobCodec D R P} {job : Job D R P} (h : job.Fits codec)
    (k : JobKey) : codec.read k (codec.pretty k (job.get k)) = some (job.get k) := by
  cases k with
  | id => exact readNumber_numberText h.id
  | timestamp =>
    have htime := readTime_integerText h.ts
    simp only [read, pretty, Job.get, htime]
    rfl
  | opts => exact h.opts
  | name => exact Codec.string.decode_pretty _ (Codec.string_neverNull _).1
  | queueName => exact Codec.string_neverNull.decodeOption_prettyOption _
  | state => exact JobState.ofText_json _
  | token =>
    have htoken := codec.token_neverNull.decodeOption_prettyOption job.token
    simp only [read, pretty, Job.get, htoken]
    rfl
  | progress => exact codec.progress_neverNull.decodeOption_prettyOption _
  | attemptsMade => exact parseNumber_toDigits h.attemptsMade
  | delay => exact parseNumber_toDigits h.delay
  | priority => exact parseNumber_toDigits h.priority
  | data => exact codec.data_neverNull.decodeOption_prettyOption _
  | returnedValue => exact codec.result_neverNull.decodeOption_prettyOption _
  | stackTrace => exact codec.traces.decode_pretty _ (codec.traces_neverNull _).1
  | logs => exact codec.logs.decode_pretty _ (codec.logs_neverNull _).1
  | failedReason => exact codec.failure_neverNull.decodeOption_prettyOption _
  | processedOn => exact readTime_option h.processedOn
  | finishedOn => exact readTime_option h.finishedOn
  | stalledCounter => exact parseNumber_toDigits h.stalledCounter

theorem represents_serializeIntoPairs {codec : JobCodec D R P} {job : Job D R P}
    (h : job.Fits codec) : codec.format.Represents (codec.serializeIntoPairs job) job :=
  RecordFormat.represents_map (F := codec.format) JobKey.mem_all (read_pretty h)

/-- The place and the report of a new job are no hashes. -/
theorem hashes_prepareForInsert {V : Type} {T : CaseTable}
    {pairs : Job D R P → List (String × V)} {queueName : String} {eventMode : QueueEventMode}
    {isPaused : Bool} {id priorCounter : ℕ} {opts : JobOptions} {job : Job D R P}
    {name : String} {now : Dt} {p : Prepared D R P V}
    (h : prepareForInsert T pairs queueName eventMode isPaused id priorCounter opts job name now =
      .ok p) (hqueued : p.commands ≠ []) (r : Server V (QueueStreamEvent R P)) :
    (r.execAll p.commands).hashes (jobKey queueName id) =
      Server.mergeFields (r.hashes (jobKey queueName id)) (pairs p.job) := by
  obtain hnil | ⟨delay, expected, state, hcommands⟩ := prepareForInsert_commands h
  · exact absurd hnil hqueued
  · have hplace : ∀ r : Server V (QueueStreamEvent R P), (r.execAll (placeCommands T queueName
        isPaused id priorCounter delay opts.priority expected state).2).hashes = r.hashes := by
      intro r
      unfold placeCommands
      split_ifs
      · cases expected <;> rfl
      · rfl
      · rfl
    rw [hcommands, Server.execAll_append]
    cases eventMode <;>
      simp [Server.execAll, Server.exec, reportCommand, ← hplace r]

theorem hashes_prepareForInsert_of_ne {V : Type} {T : CaseTable}
    {pairs : Job D R P → List (String × V)} {queueName : String} {eventMode : QueueEventMode}
    {isPaused : Bool} {id priorCounter : ℕ} {opts : JobOptions} {job : Job D R P}
    {name : String} {now : Dt} {p : Prepared D R P V}
    (h : prepareForInsert T pairs queueName eventMode isPaused id priorCounter opts job name now =
      .ok p) (r : Server V (QueueStreamEvent R P)) {key : Key} (hkey : key ≠ jobKey queueName id) :
    (r.execAll p.commands).hashes key = r.hashes key := by
  have hall : ∀ c ∈ p.commands, ∀ r : Server V (QueueStreamEvent R P),
      (r.exec c).hashes key = r.hashes key := by
    intro c hc r
    rcases mem_commands_cases h hc with ⟨_, rfl⟩ | ⟨_, rfl⟩ | rfl | rfl | ⟨_, rfl⟩
    · rfl
    · rfl
    · rfl
    · exact Function.update_of_ne hkey _ _
    · cases eventMode <;> rfl
  generalize p.commands = commands at hall
  induction commands generalizing r with
  | nil => rfl
  | cons c commands ih =>
    exact (ih (r.exec c) fun d hd => hall d (List.mem_cons_of_mem _ hd)).trans
      (hall c List.mem_cons_self r)

theorem represents_prepareForInsert {codec : JobCodec D R P} {T : CaseTable}
    {queueName : String} {eventMode : QueueEventMode} {isPaused : Bool} {id priorCounter : ℕ}
    {opts : JobOptions} {job : Job D R P} {name : String} {now : Dt}
    {p : Prepared D R P Text}
    (h : prepareForInsert T codec.serializeIntoPairs queueName eventMode isPaused id priorCounter
      opts job name now = .ok p) (hqueued : p.commands ≠ []) (hfits : p.job.Fits codec)
    {r : Server Text (QueueStreamEvent R P)} (hnew : r.hashes (jobKey queueName id) = []) :
    codec.format.Represents ((r.execAll p.commands).hashes (jobKey queueName id)) p.job := by
  rw [hashes_prepareForInsert h hqueued, hnew]
  exact represents_serializeIntoPairs hfits

theorem id_prepareForInsert {V : Type} {T : CaseTable}
    {pairs : Job D R P → List (String × V)} {queueName : String} {eventMode : QueueEventMode}
    {isPaused : Bool} {id priorCounter : ℕ} {opts : JobOptions} {job : Job D R P}
    {name : String} {now : Dt} {p : Prepared D R P V}
    (h : prepareForInsert T pairs queueName eventMode isPaused id priorCounter opts job name now =
      .ok p) (hqueued : p.commands ≠ []) : p.job.id = some id := by
  obtain ⟨expected, ms, state, -, -, hcases⟩ := prepareForInsert_cases h
  split_ifs at hcases
  · exact absurd hcases hqueued
  · exact hcases.1

end JobCodec

end Kiomq
