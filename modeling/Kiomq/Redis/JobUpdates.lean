import Kiomq.Foundations.Runs
import Kiomq.Redis.JobRecord
import Kiomq.Redis.Layout
import Kiomq.Stores.Holdings
import Mathlib.Logic.Equiv.List

/-!
# Updates of the hash of a job

`set_fields` and `incr` rewrite single fields of a hash, under names from tables of their
own. The names are those that the hash was written with, so that it follows the record
that a store in memory keeps, as long as the counters stay in the range of `i64`. But the
key of the hash is lowercased, and the key that the hash was written to is not: the hash
of a queue whose name has capital letters gets no update.
-/

namespace Kiomq

open Foundations Redis

variable {D R P : Type}

/-! ### Updates of the hash -/

def JobField.name : JobField R → String
  | .token _ => "token"
  | .payload (.success _ _) => "returnedValue"
  | .payload (.failed _) => "failedReason"
  | .processedOn _ => "processedOn"
  | .finishedOn _ => "finishedOn"
  | .state _ => "state"
  | .backTrace _ => "stackTrace"

def JobField.isBackTrace : JobField R → Bool
  | .backTrace _ => true
  | _ => false

inductive JobCounter
  | attemptsMade
  | stalledCounter
  deriving DecidableEq

namespace JobCounter

def name : JobCounter → String
  | .attemptsMade => "attemptsMade"
  | .stalledCounter => "stalledCounter"

def field : JobCounter → HashField
  | .attemptsMade => .attemptsMade
  | .stalledCounter => .stalledCounter

def value (job : Job D R P) : JobCounter → ℕ
  | .attemptsMade => job.attemptsMade
  | .stalledCounter => job.stalledCounter

end JobCounter

namespace JobCodec

/-- The traces that `set_fields` finds in the hash. -/
def previousTraces (codec : JobCodec D R P) : Option Text → List Trace
  | none => []
  | some text => if text.isEmpty then [] else (codec.traces.decode text).getD []

/-- The text of an update; `stored` is that of the traces in the hash. -/
def fieldText (codec : JobCodec D R P) (stored : Option Text) : JobField R → Text
  | .payload (.success value _) => codec.result.compact value
  | .backTrace trace => codec.traces.compact (codec.previousTraces stored ++ [trace])
  | .payload (.failed details) => codec.failure.compact details
  | .token token => codec.token.compact token
  | .processedOn ts => Nat.toDigits 10 ts
  | .finishedOn ts => Nat.toDigits 10 ts
  | .state state => state.json

end JobCodec

namespace RedisStore

variable {M : Type}

/-- `HSET` sets its fields one after another. All updates are made from what the hash was
before the first of them. -/
def setFields (T : CaseTable) (st : RedisStore) (codec : JobCodec D R P) (jobId : ℕ)
    (fields : List (JobField R)) (r : Server Text M) : Server Text M :=
  let key := st.recordKey T jobId
  let nextFields := fields.map fun field =>
    (field.name, codec.fieldText (r.hget key "stackTrace") field)
  nextFields.foldl (fun r pair => r.exec (.hsetMultiple key [pair])) r

/-- `HINCRBY`, which leaves the hash alone if the value is not an `i64` or would overflow. -/
def hincrby (r : Server Text M) (key : Key) (field : String) (delta : ℤ) :
    Option ℤ × Server Text M :=
  match ((r.hget key field).elim (some 0) (parseSigned 64)) with
  | none => (none, r)
  | some n =>
    if -2 ^ 63 ≤ n + delta ∧ n + delta < 2 ^ 63 then
      (some (n + delta), r.exec (.hsetMultiple key [(field, integerText (n + delta))]))
    else (none, r)

/-- `incr` on a counter of a job, with an answer of type `u64`. -/
def incr (T : CaseTable) (st : RedisStore) (jobId : ℕ) (counter : JobCounter) (delta : ℤ)
    (r : Server Text M) : Option ℕ × Server Text M :=
  let (value, r) := hincrby r (st.recordKey T jobId) counter.name delta
  (value.bind fun n => if 0 ≤ n then some n.toNat else none, r)

end RedisStore

/-! ### Updates keep the hash and the record together -/

namespace JobField

def key : JobField R → JobKey
  | .token _ => .token
  | .payload (.success _ _) => .returnedValue
  | .payload (.failed _) => .failedReason
  | .processedOn _ => .processedOn
  | .finishedOn _ => .finishedOn
  | .state _ => .state
  | .backTrace _ => .stackTrace

theorem name_eq_written (field : JobField R) : field.name = field.key.written := by
  rcases field with _ | (_ | _) | _ | _ | _ | _ <;> rfl

def value (job : Job D R P) : (field : JobField R) → JobKey.Component D R P field.key
  | .token t => some t
  | .payload (.success result _) => some result
  | .payload (.failed details) => some details
  | .processedOn ts => Dt.fromTimestampMicros (castSigned ts)
  | .finishedOn ts => Dt.fromTimestampMicros (castSigned ts)
  | .state s => s
  | .backTrace trace => job.stackTrace ++ [trace]

theorem setField_eq_put (job : Job D R P) (field : JobField R) :
    job.setField field = job.put field.key (field.value job) := by
  rcases field with _ | (_ | _) | _ | _ | _ | _ <;> rfl

theorem stackTrace_setField (job : Job D R P) {field : JobField R}
    (h : field.isBackTrace = false) : (job.setField field).stackTrace = job.stackTrace := by
  rcases field with _ | (_ | _) | _ | _ | _ | _
  case backTrace => simp [isBackTrace] at h
  all_goals rfl

/-- A time is of type `u64`. -/
def Fits : JobField R → Prop
  | .processedOn ts => ts < 2 ^ 64
  | .finishedOn ts => ts < 2 ^ 64
  | _ => True

instance (field : JobField R) : Decidable field.Fits := by
  rcases field with _ | (_ | _) | _ | _ | _ | _ <;> unfold Fits <;> infer_instance

end JobField

namespace JobCodec

variable (codec : JobCodec D R P)

/-- The text of an update is read as the value that the record in memory gets, if a trace
is added to those of the record. -/
theorem read_fieldText {stored : Option Text} {job : Job D R P} {field : JobField R}
    (hfits : field.Fits)
    (hstored : field.isBackTrace = true → codec.previousTraces stored = job.stackTrace) :
    codec.read field.key (codec.fieldText stored field) = some (field.value job) := by
  cases field with
  | token token =>
    have htoken := codec.token.decodeOption_compact (codec.token_neverNull token).2
    simp only [JobField.key, read, fieldText, htoken]
    rfl
  | payload result =>
    cases result with
    | failed details =>
      exact codec.failure.decodeOption_compact (codec.failure_neverNull details).2
    | success value metrics =>
      exact codec.result.decodeOption_compact (codec.result_neverNull value).2
  | processedOn ts => exact readTime_toDigits hfits
  | finishedOn ts => exact readTime_toDigits hfits
  | state state => exact state.ofText_json
  | backTrace trace =>
    have htext : codec.fieldText stored (.backTrace trace) =
        codec.traces.compact (job.stackTrace ++ [trace]) := by
      rw [fieldText, hstored rfl]
    rw [htext]
    exact codec.traces.decode_compact _ (codec.traces_neverNull _).2

variable {codec} {M : Type}

theorem represents_hset {r : Server Text M} {key : Key} {job : Job D R P}
    (h : codec.format.Represents (r.hashes key) job) {k : JobKey} {text : Text}
    {v : JobKey.Component D R P k} (hread : codec.read k text = some v) :
    codec.format.Represents
      ((r.exec (.hsetMultiple key [(k.written, text)])).hashes key) (job.put k v) := by
  have hhash : (r.exec (.hsetMultiple key [(k.written, text)])).hashes key =
      (r.hashes key).filter (fun e => e.1 ≠ k.written) ++ [(k.written, text)] := by
    simp only [Server.exec, Function.update_self, Server.mergeFields]
    congr 1
    apply List.filter_congr
    intro e _
    by_cases hname : e.1 = k.written
    · simp [hname]
    · simp [hname, Ne.symm hname]
  rw [hhash]
  exact h.replace hread

theorem exists_hget {r : Server Text M} {key : Key} {job : Job D R P}
    (h : codec.format.Represents (r.hashes key) job) (k : JobKey) :
    ∃ text, r.hget key k.written = some text ∧ codec.read k text = some (job.get k) := by
  obtain ⟨e, he, hname⟩ := h.complete k
  have hsome : ((r.hashes key).find? fun f => decide (f.1 = k.written)).isSome = true :=
    List.find?_isSome.mpr ⟨e, he, decide_eq_true hname⟩
  obtain ⟨f, hf⟩ := Option.isSome_iff_exists.mp hsome
  have hfname := List.find?_some hf
  refine ⟨f.2, ?_, ?_⟩
  · rw [Server.hget, Server.lookupField, hf, Option.map_some]
  · exact h.read_eq (List.mem_of_find?_eq_some hf) (of_decide_eq_true hfname)

theorem previousTraces_hget {r : Server Text M} {key : Key} {job : Job D R P}
    (h : codec.format.Represents (r.hashes key) job) :
    codec.previousTraces (r.hget key "stackTrace") = job.stackTrace := by
  obtain ⟨text, hget, hread⟩ := exists_hget h .stackTrace
  have hdecode : codec.traces.decode text = some job.stackTrace := hread
  have hne : text.isEmpty = false := by
    cases text with
    | nil => exact absurd (codec.traces_nil.symm.trans hdecode) (by simp)
    | cons _ _ => rfl
  have hstored : r.hget key "stackTrace" = some text := hget
  simp [hstored, previousTraces, hne, hdecode]

/-- The updates of a call, one after another. The traces that were read before the call are
still those of the record when the one trace is added. -/
theorem represents_updates {key : Key} (stored : Option Text) {fields : List (JobField R)}
    (hfits : ∀ field ∈ fields, field.Fits)
    (hone : fields.countP JobField.isBackTrace ≤ 1) {r : Server Text M} {job : Job D R P}
    (h : codec.format.Represents (r.hashes key) job)
    (hstored : 0 < fields.countP JobField.isBackTrace →
      codec.previousTraces stored = job.stackTrace) :
    codec.format.Represents
      (((fields.map fun field => (field.name, codec.fieldText stored field)).foldl
        (fun r pair => r.exec (.hsetMultiple key [pair])) r).hashes key)
      (fields.foldl Job.setField job) := by
  induction fields generalizing r job with
  | nil => exact h
  | cons field fields ih =>
    rw [List.countP_cons] at hone hstored
    have hread : codec.read field.key (codec.fieldText stored field) = some (field.value job) :=
      codec.read_fieldText (hfits field List.mem_cons_self) fun htrace => hstored (by simp [htrace])
    rw [List.map_cons, List.foldl_cons, List.foldl_cons, field.name_eq_written]
    apply ih
    · exact fun field' hmem => hfits field' (List.mem_cons_of_mem field hmem)
    · omega
    · rw [field.setField_eq_put]
      exact represents_hset h hread
    · intro hrest
      cases htrace : field.isBackTrace with
      | true =>
        rw [htrace, if_pos rfl] at hone
        omega
      | false =>
        rw [JobField.stackTrace_setField job htrace]
        exact hstored (by omega)

theorem represents_setFields {T : CaseTable} {st : RedisStore} {jobId : ℕ}
    {fields : List (JobField R)} (hfits : ∀ field ∈ fields, field.Fits)
    (hone : fields.countP JobField.isBackTrace ≤ 1) {r : Server Text M} {job : Job D R P}
    (h : codec.format.Represents (r.hashes (st.recordKey T jobId)) job) :
    codec.format.Represents
      ((st.setFields T codec jobId fields r).hashes (st.recordKey T jobId))
      (fields.foldl Job.setField job) :=
  represents_updates (r.hget (st.recordKey T jobId) "stackTrace") hfits hone h
    fun _ => previousTraces_hget h

end JobCodec

namespace JobCounter

def key : JobCounter → JobKey
  | .attemptsMade => .attemptsMade
  | .stalledCounter => .stalledCounter

theorem name_eq_written (counter : JobCounter) : counter.name = counter.key.written := by
  cases counter <;> rfl

theorem value_incrJob (job : Job D R P) (counter : JobCounter) :
    counter.value (InMemoryStore.incrJob job counter.field 1) = counter.value job + 1 := by
  cases counter <;> rfl

theorem getJob_incr (s : InMemoryStore D R P) (id : ℕ) (counter : JobCounter) :
    (s.incr (.job id) 1 (some counter.field)).2.getJob id =
      (s.getJob id).map fun job => InMemoryStore.incrJob job counter.field 1 := by
  have hmodify := s.getJob_modify id (fun job => InMemoryStore.incrJob job counter.field 1) id
  rw [if_pos rfl] at hmodify
  exact hmodify

variable {M : Type}

theorem hincrby_of_lt {r : Server Text M} {key : Key} {field : String} {text : Text} {n : ℕ}
    (hget : r.hget key field = some text) (hparse : parseNumber 64 text = some n)
    (hbelow : n < 2 ^ 63 - 1) :
    (RedisStore.hincrby r key field 1).2 =
      r.exec (.hsetMultiple key [(field, Nat.toDigits 10 (n + 1))]) := by
  have hsigned : parseSigned 64 text = some (n : ℤ) :=
    parseSigned_of_parseNumber hparse (by omega)
  have hrange : -2 ^ 63 ≤ (n : ℤ) + 1 ∧ (n : ℤ) + 1 < 2 ^ 63 := by omega
  have htext : integerText ((n : ℤ) + 1) = Nat.toDigits 10 (n + 1) := by
    rw [← integerText_natCast, Nat.cast_add_one]
  rw [RedisStore.hincrby, hget, Option.elim_some, hsigned]
  simp only [if_pos hrange, htext]

theorem represents_incr {codec : JobCodec D R P} {T : CaseTable} {st : RedisStore} {jobId : ℕ}
    {counter : JobCounter} {r : Server Text M} {job : Job D R P}
    (h : codec.format.Represents (r.hashes (st.recordKey T jobId)) job)
    (hbelow : counter.value job < 2 ^ 63 - 1) :
    codec.format.Represents ((st.incr T jobId counter 1 r).2.hashes (st.recordKey T jobId))
      (InMemoryStore.incrJob job counter.field 1) := by
  obtain ⟨text, hget, hread⟩ := JobCodec.exists_hget h counter.key
  have hparse : parseNumber 64 text = some (counter.value job) := by
    cases counter <;> exact hread
  rw [← name_eq_written] at hget
  have hserver := hincrby_of_lt hget hparse hbelow
  have hnext : parseNumber 64 (Nat.toDigits 10 (counter.value job + 1)) =
      some (counter.value job + 1) :=
    parseNumber_toDigits (by omega)
  change codec.format.Represents
    ((RedisStore.hincrby r (st.recordKey T jobId) counter.name 1).2.hashes _) _
  rw [hserver]
  cases counter with
  | attemptsMade => exact JobCodec.represents_hset (k := .attemptsMade) h hnext
  | stalledCounter => exact JobCodec.represents_hset (k := .stalledCounter) h hnext

end JobCounter

/-! ### Runs -/

/-- The server, and the record that a store in memory keeps of the same job. -/
structure RecordRun (D R P M : Type) where
  server : Server Text M
  job : Job D R P

inductive RecordAction (R : Type)
  | setFields (fields : List (JobField R))
  | incr (counter : JobCounter)

namespace RecordRun

variable {M : Type}

/-- The same call on both stores. -/
def step (T : CaseTable) (st : RedisStore) (codec : JobCodec D R P) (jobId : ℕ)
    (s : RecordRun D R P M) : RecordAction R → Option (RecordRun D R P M)
  | .setFields fields =>
    some ⟨st.setFields T codec jobId fields s.server, fields.foldl Job.setField s.job⟩
  | .incr counter =>
    some ⟨(st.incr T jobId counter 1 s.server).2, InMemoryStore.incrJob s.job counter.field 1⟩

/-- Whenever it is read, and in whatever order the server returns its fields, the hash is
decoded as the record in memory. -/
def Decodes (T : CaseTable) (st : RedisStore) (codec : JobCodec D R P) (jobId : ℕ)
    (s : RecordRun D R P M) : Prop :=
  ∀ now fields, fields.Perm (s.server.hashes (st.recordKey T jobId)) →
    codec.fromRedisValue now fields = some s.job

/-- At most one trace is added by a call, and no counter leaves the range of `i64`. -/
def Proper (s : RecordRun D R P M) : RecordAction R → Prop
  | .setFields fields =>
    fields.countP JobField.isBackTrace ≤ 1 ∧ ∀ field ∈ fields, field.Fits
  | .incr counter => counter.value s.job < 2 ^ 63 - 1

instance (s : RecordRun D R P M) (a : RecordAction R) : Decidable (Proper s a) := by
  cases a <;> unfold Proper <;> infer_instance

variable {T : CaseTable} {st : RedisStore} {codec : JobCodec D R P} {jobId : ℕ}

theorem represents_step {s t : RecordRun D R P M} {a : RecordAction R}
    (h : codec.format.Represents (s.server.hashes (st.recordKey T jobId)) s.job)
    (hproper : Proper s a) (hstep : step T st codec jobId s a = some t) :
    codec.format.Represents (t.server.hashes (st.recordKey T jobId)) t.job := by
  cases a with
  | setFields fields =>
    obtain rfl := Option.some.inj hstep
    exact JobCodec.represents_setFields hproper.2 hproper.1 h
  | incr counter =>
    obtain rfl := Option.some.inj hstep
    exact JobCounter.represents_incr h hproper

/-- After the first call and from then on, the hash is decoded as the record in memory. -/
def KeepsUp (T : CaseTable) (st : RedisStore) (codec : JobCodec D R P) (jobId : ℕ)
    (s : RecordRun D R P M) : Prop :=
  ∀ action actions, Guarded (step T st codec jobId) Proper s (action :: actions) →
    ∀ t, step T st codec jobId s action = some t →
      Always (step T st codec jobId) (Decodes T st codec jobId) t actions

theorem keepsUp_of_represents {s : RecordRun D R P M}
    (h : codec.format.Represents (s.server.hashes (st.recordKey T jobId)) s.job) :
    KeepsUp T st codec jobId s := by
  intro action actions hproper t hstep
  obtain ⟨hfirst, hrest⟩ := hproper
  refine always_of_invariant (fun s a t => represents_step) ?_ (represents_step h hfirst hstep)
    (hrest t hstep)
  intro s h now fields hperm
  exact (h.perm hperm).readEntries_eq _

/-- A hash that only got updates is read as a job without an id. -/
theorem not_keepsUp_of_nil {s : RecordRun D R P M}
    (hnone : s.server.hashes (st.recordKey T jobId) = []) {id : ℕ} (hid : s.job.id = some id) :
    ¬ KeepsUp T st codec jobId s := by
  intro h
  have hdecodes := h (.setFields [.token ⟨0, 0, 0⟩]) []
    ⟨⟨Nat.zero_le _, List.forall_mem_singleton.mpr trivial⟩, fun _ _ => trivial⟩ _ rfl
  have hhash : (st.setFields T codec jobId [.token ⟨0, 0, 0⟩] s.server).hashes
      (st.recordKey T jobId) = [("token", codec.token.compact ⟨0, 0, 0⟩)] := by
    simp [RedisStore.setFields, Server.exec, Server.mergeFields, hnone, JobField.name,
      JobCodec.fieldText]
  have hread := hdecodes 0 _ (List.Perm.refl _)
  simp only [hhash] at hread
  have htoken : JobKey.ofName "token" ≠ some .id := by decide
  have hblank := RecordFormat.get_readEntries_of_absent (k := JobKey.id)
    (List.forall_mem_singleton.mpr htoken) hread
  exact absurd (hblank.symm.trans hid) (by simp [JobCodec.format, Job.get, Job.new])

section Inserted

variable {eventMode : QueueEventMode} {isPaused : Bool} {priorCounter : ℕ} {opts : JobOptions}
  {job : Job D R P} {name : String} {now : Dt} {p : Prepared D R P Text}

/-- The hash that an insertion writes is decoded as the new job. It keeps up with the record in
memory, through every sequence of calls that leaves the counters in the range of `i64`, just if
lowercasing does not change the name of the queue. -/
theorem inserted_keepsUp_iff_fixed
    (h : prepareForInsert T codec.serializeIntoPairs st.queueName eventMode isPaused jobId
      priorCounter opts job name now = .ok p)
    (hqueued : p.commands ≠ []) (hfits : p.job.Fits codec)
    {r : Server Text (QueueStreamEvent R P)} (hnew : r.hashes (jobKey st.queueName jobId) = [])
    (hnone : r.hashes (st.recordKey T jobId) = []) :
    (∀ later fields, fields.Perm ((r.execAll p.commands).hashes (jobKey st.queueName jobId)) →
        codec.fromRedisValue later fields = some p.job) ∧
      (KeepsUp T st codec jobId ⟨r.execAll p.commands, p.job⟩ ↔ T.Fixed st.queueName.toList) := by
  have hstart := JobCodec.represents_prepareForInsert h hqueued hfits hnew
  refine ⟨fun later fields hperm => (hstart.perm hperm).readEntries_eq _, ?_, fun hfixed => ?_⟩
  · intro hkeeps
    by_contra hfixed
    have hkey : st.recordKey T jobId ≠ jobKey st.queueName jobId := fun heq =>
      hfixed ((st.jobKey_eq_recordKey_iff T jobId jobId).mp heq.symm).2
    have hempty : (r.execAll p.commands).hashes (st.recordKey T jobId) = [] :=
      (JobCodec.hashes_prepareForInsert_of_ne h r hkey).trans hnone
    exact not_keepsUp_of_nil hempty (JobCodec.id_prepareForInsert h hqueued) hkeeps
  · apply keepsUp_of_represents
    rw [(st.jobKey_eq_recordKey_iff T jobId jobId).mpr ⟨rfl, hfixed⟩] at hstart
    exact hstart

end Inserted

/-! ### A queue of mails -/

def characters (s : String) : List ℕ := s.toList.map Char.toNat

def ofCharacters (l : List ℕ) : String := String.ofList (l.map Char.ofNat)

theorem ofCharacters_characters (s : String) : ofCharacters (characters s) = s := by
  have hid : Char.ofNat ∘ Char.toNat = id := funext Char.ofNat_toNat
  rw [ofCharacters, characters, List.map_map, hid, List.map_id, String.ofList_toList]

/-- Strings are written as JSON, other values by a number. Only the default options are
readable. -/
def mailCodec : JobCodec String String ℕ where
  options _ := "\x7b\x7d".toList
  readOptions text := if text = "\x7b\x7d".toList then some {} else none
  data := .string
  result := .string
  progress := .numbered id id fun _ => rfl
  traces := .encoded
    (fun l => l.map fun t => (t.run, characters t.reason, t.frames.map characters))
    (fun l => l.map fun t => ⟨t.1, ofCharacters t.2.1, t.2.2.map ofCharacters⟩)
    (by simp [Function.comp_def, ofCharacters_characters]) []
  failure := EventCodec.failureCodec
  token := .encoded (fun t => (t.worker, t.nonce, t.count)) (fun t => ⟨t.1, t.2.1, t.2.2⟩)
    (fun _ => rfl) ⟨0, 0, 0⟩
  logs := .encoded (fun l => l.map characters) (fun l => l.map ofCharacters)
    (by simp [Function.comp_def, ofCharacters_characters]) []
  data_neverNull := Codec.string_neverNull
  result_neverNull := Codec.string_neverNull
  progress_neverNull := Codec.numbered_neverNull _ _ _
  traces_neverNull := Codec.encoded_neverNull _ _ _ _
  failure_neverNull := EventCodec.failureCodec_neverNull
  token_neverNull := Codec.encoded_neverNull _ _ _ _
  logs_neverNull := Codec.encoded_neverNull _ _ _ _
  traces_nil := by decide

/-- The first job of a queue. -/
def mailJob (queueName : String) : Job String String ℕ :=
  Job.new "greet" (some "hello") (some 1) (some queueName) 1000

theorem mailJob_fits (queueName : String) : (mailJob queueName).Fits mailCodec where
  id := by simp [mailJob, Job.new]
  attemptsMade := by simp [mailJob, Job.new]
  delay := by simp [mailJob, Job.new]
  priority := by simp [mailJob, Job.new]
  stalledCounter := by simp [mailJob, Job.new]
  ts := ⟨by simp [mailJob, Job.new], by simp [mailJob, Job.new, Dt.maxUtc]⟩
  processedOn := by simp [mailJob, Job.new]
  finishedOn := by simp [mailJob, Job.new]
  opts := rfl

/-- The insertion of that job. -/
def prepareMail (st : RedisStore) : KioResult (Prepared String String ℕ Text) :=
  prepareForInsert .ascii mailCodec.serializeIntoPairs st.queueName .pubSub false 1 0 {}
    (Job.new "greet" (some "hello") none (some st.queueName) 1000) "greet" 1000

/-- It writes the hash of the job, puts its id in the wait list and publishes an event. -/
def mailCommands (st : RedisStore) : List (Cmd Text (QueueStreamEvent String ℕ)) :=
  [.lpush (waitingKey .ascii st.queueName false) 1,
    .hsetMultiple (jobKey st.queueName 1) (mailCodec.serializeIntoPairs (mailJob st.queueName)),
    reportCommand st.queueName .pubSub 1 "greet" 0 0]

theorem prepareMail_eq (st : RedisStore) :
    prepareMail st = .ok ⟨mailJob st.queueName, mailCommands st, .ok ()⟩ := rfl

def mailRun (st : RedisStore) : RecordRun String String ℕ (QueueStreamEvent String ℕ) :=
  ⟨Server.empty.execAll (mailCommands st), mailJob st.queueName⟩

def mailUpdates : List (RecordAction String) :=
  [.setFields [.token ⟨1, 2, 3⟩, .processedOn 2000], .incr .attemptsMade,
    .setFields [.state .wait, .backTrace ⟨1, "timeout", ["send"]⟩,
      .payload (.failed ⟨1, "timeout"⟩)],
    .incr .stalledCounter, .setFields [.token ⟨1, 5, 4⟩, .processedOn 3000],
    .incr .attemptsMade, .setFields [.state .completed, .payload (.success "sent" {}),
      .finishedOn 4000]]

theorem mailUpdates_decodes :
    Guarded (step .ascii (RedisStore.new none "mail") mailCodec 1) Proper
        (mailRun (RedisStore.new none "mail")) mailUpdates ∧
      KeepsUp .ascii (RedisStore.new none "mail") mailCodec 1
        (mailRun (RedisStore.new none "mail")) :=
  ⟨by decide +kernel, (inserted_keepsUp_iff_fixed (T := .ascii) (r := Server.empty)
    (prepareMail_eq (RedisStore.new none "mail")) (List.cons_ne_nil _ _) (mailJob_fits _) rfl
    rfl).2.mpr (by decide +kernel)⟩

/-- A capital letter in the name: the hash that `set_fields` updates is not the one that was
written, and is decoded as a job without an id. -/
theorem capital_not_keepsUp :
    jobKey (RedisStore.new none "Orders").queueName 1 = "{kio}:Orders:1".toList ∧
      (RedisStore.new none "Orders").recordKey .ascii 1 = "{kio}:orders:1".toList ∧
      Guarded (step .ascii (RedisStore.new none "Orders") mailCodec 1) Proper
        (mailRun (RedisStore.new none "Orders")) mailUpdates ∧
      (run (step .ascii (RedisStore.new none "Orders") mailCodec 1)
        (mailRun (RedisStore.new none "Orders")) mailUpdates).any (fun s =>
          decide (s.job.id = some 1) && ((mailCodec.fromRedisValue 0 (s.server.hashes
            "{kio}:orders:1".toList)).any fun job => decide (job.id = none))) = true ∧
      ¬ KeepsUp .ascii (RedisStore.new none "Orders") mailCodec 1
        (mailRun (RedisStore.new none "Orders")) := by
  refine ⟨by decide +kernel, by decide +kernel, by decide +kernel, by decide +kernel, ?_⟩
  exact not_keepsUp_of_nil (by decide +kernel) (show _ = some 1 from rfl)

end RecordRun

end Kiomq
