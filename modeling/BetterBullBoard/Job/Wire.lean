import BetterBullBoard.Job.NothingLost
import BetterBullBoard.Lib.Json

/-! # Job events on the stream

A worker writes a snapshot of its job as JSON text, and the ingestion reads it back
through the schema and `formatJobRun`. `job.toJSON()` is BullMQ's: the properties that
are read are given, of the types BullMQ writes, and whatever else it holds follows.
-/

namespace BetterBullBoard

def JobSyncPhase.text : JobSyncPhase → String
  | .waiting => "waiting"
  | .active => "active"
  | .terminal => "terminal"
  | .snapshot => "snapshot"

/-- `z.enum(["waiting", "active", "terminal", "snapshot"])` -/
def JobSyncPhase.ofText : String → Option JobSyncPhase
  | "waiting" => some .waiting
  | "active" => some .active
  | "terminal" => some .terminal
  | "snapshot" => some .snapshot
  | _ => none

theorem JobSyncPhase.ofText_text (phase : JobSyncPhase) : ofText phase.text = some phase := by cases phase <;> rfl

/-- The states that the schema accepts. -/
def jobSyncStates : List String :=
  ["active", "completed", "failed", "waiting", "delayed", "prioritized", "waiting-children", "unknown"]

/-- Properties that nothing reads. -/
def others (properties : List (String × Json)) : List (String × Option Json) := properties.map fun p => (p.1, some p.2)

theorem others_distinct {properties : List (String × Json)} (values : ∀ p ∈ properties, p.2.Distinct) :
    ∀ f ∈ others properties, ∀ v ∈ f.2, v.Distinct := by
  intro f hf v hv
  obtain ⟨p, hp, rfl⟩ := List.mem_map.mp hf
  obtain rfl := Option.some.inj hv
  exact values p hp

theorem map_distinct {α : Type} {write : α → Json} (distinct : ∀ a, (write a).Distinct) {a : Option α} :
    ∀ v ∈ a.map write, v.Distinct := by
  intro v hv
  obtain ⟨x, -, rfl⟩ := Option.map_eq_some_iff.mp hv
  exact distinct x

theorem ofOption_distinct {α : Type} {write : α → Json} (distinct : ∀ a, (write a).Distinct) (a : Option α) :
    (Json.ofOption write a).Distinct := by
  cases a with
  | none => trivial
  | some x => exact distinct x

/-- The properties of `job.opts`. -/
def JobOpts.fields (opts : JobOpts Json.Given) (parentRest optsRest : List (String × Json)) :
    List (String × Option Json) :=
  [("attempts", opts.attempts.map .number), ("priority", opts.priority.map .number),
    ("delay", opts.delay.map .number), ("backoff", opts.backoff.map (·.json)),
    ("parent", opts.parentId.map fun id => .record (("id", some (.string id)) :: others parentRest))] ++ others optsRest

/-- The properties of `job.toJSON()`. -/
def JobSnapshot.fields (job : JobSnapshot Json.Given) (opts : Json) (jobRest : List (String × Json)) :
    List (String × Option Json) :=
  [("name", job.name.map .string), ("data", job.data.map (·.json)), ("opts", some opts), ("id", job.id.map .string),
    ("returnvalue", some (Json.ofOption (·.json) job.returnvalue)),
    ("stacktrace", some (Json.ofOption Json.strings job.stacktrace)),
    ("attemptsMade", some (.number job.attemptsMade)), ("timestamp", some (.number job.timestamp)),
    ("processedOn", job.processedOn.map .number), ("finishedOn", job.finishedOn.map .number),
    ("failedReason", job.failedReason.map .string), ("repeatJobKey", job.repeatJobKey.map .string)] ++ others jobRest

def JobOpts.ofJson (v : Json) : Option (JobOpts Json.Given) := do
  let attempts ← v.optionalProperty "attempts" Json.asNumber
  let priority ← v.nullishProperty "priority" Json.asNumber
  let delay ← v.optionalProperty "delay" Json.asNumber
  let parentId ← (v.property "parent").elim (some none) (Json.nullishProperty "id" Json.asString)
  some { attempts, priority, delay, backoff := (v.property "backoff").bind Json.Given.ofJson, parentId }

/-- What `formatJobRun` reads of a job, none where the insert schema will refuse. -/
def JobSnapshot.ofJson (v : Json) : Option (JobSnapshot Json.Given) := do
  let id ← v.nullishProperty "id" Json.asString
  let name ← v.nullishProperty "name" Json.asString
  let opts ← (v.property "opts").bind JobOpts.ofJson
  let attemptsMade ← (v.property "attemptsMade").bind Json.asNumber
  let timestamp ← (v.property "timestamp").bind Json.asNumber
  let processedOn ← v.nullishProperty "processedOn" Json.asNumber
  let finishedOn ← v.nullishProperty "finishedOn" Json.asNumber
  let failedReason ← v.nullishProperty "failedReason" Json.asString
  let stacktrace ← v.nullishProperty "stacktrace" Json.asStrings
  let repeatJobKey ← v.nullishProperty "repeatJobKey" Json.asString
  some { id, name, opts, attemptsMade, timestamp, processedOn, finishedOn, failedReason, stacktrace, repeatJobKey
         data := (v.property "data").bind Json.Given.ofJson
         returnvalue := (v.property "returnvalue").bind Json.Given.ofJson }

/-- `jobSyncEventSchema.parse(value)` -/
def jobSyncEventSchema (v : Json) : Option (JobSyncEvent Json.Given) := do
  let version ← (v.property "version").bind Json.asNumber
  if version ≠ 1 then none
  let _ ← v.optionalProperty "eventId" Json.asString
  let workerId ← v.optionalProperty "workerId" Json.asString
  let queueName ← (v.property "queueName").bind Json.asString
  let phase ← v.optionalProperty "phase" fun p => p.asString.bind JobSyncPhase.ofText
  let state ← v.optionalProperty "state" fun p => p.asString.filter (· ∈ jobSyncStates)
  let tags ← v.optionalProperty "tags" Json.asStrings
  let job ← (v.property "job").bind JobSnapshot.ofJson
  some { workerId, queueName, phase := phase.getD .snapshot, state, tags, job }

def parseJobSyncEvent (raw : String) : Option (JobSyncEvent Json.Given) := (Json.parse raw).bind jobSyncEventSchema

/-- What a worker hands to `emitJobSyncEvent`: the event, and what else its job, the
    options and the parent hold. -/
structure SentJob where
  event : JobSyncEvent Json.Given
  jobRest : List (String × Json) := []
  optsRest : List (String × Json) := []
  parentRest : List (String × Json) := []
  state : ∀ state ∈ event.state, state ∈ jobSyncStates
  jobNames : ((event.job.fields .null jobRest).map Prod.fst).Nodup
  optsNames : ((event.job.opts.fields parentRest optsRest).map Prod.fst).Nodup
  parentNames : ((("id", none) :: others parentRest).map Prod.fst).Nodup
  values : ∀ p ∈ jobRest ++ optsRest ++ parentRest, p.2.Distinct

namespace SentJob

variable (e : SentJob)

def opts : Json := .record (e.event.job.opts.fields e.parentRest e.optsRest)

def job : Json := .record (e.event.job.fields e.opts e.jobRest)

def payload : Json := .record [("version", some (.number 1)), ("workerId", e.event.workerId.map .string),
  ("queueName", some (.string e.event.queueName)), ("phase", some (.string e.event.phase.text)),
  ("state", e.event.state.map .string), ("tags", e.event.tags.map Json.strings), ("job", some e.job)]

/-- `XADD bbb:worker:jobs * payload ..`, the entry of this id. -/
def emitJobSyncEvent (id : Nat) (e : SentJob) : StreamMessage := ⟨id, ["payload", e.payload.stringify]⟩

/-- The row that the ingestion makes of the worker's job, none where it throws. -/
def row : Option (JobRunInsert Json.Given) :=
  formatJobRun e.event.job e.event.queueName e.event.workerId ((e.event.tags.map .value).getD .undefined)
    (some e.event.phase) e.event.state

/-! ## The ingestion reads what the worker wrote -/

theorem jobNames_opts (opts : Json) : ((e.event.job.fields opts e.jobRest).map Prod.fst).Nodup := e.jobNames

theorem ofJson_opts : JobOpts.ofJson e.opts = some e.event.job.opts := by
  have names := e.optsNames
  have attempts : e.opts.optionalProperty "attempts" Json.asNumber = some e.event.job.opts.attempts :=
    Json.optionalProperty_record names .number (by simp [JobOpts.fields, JsMap.get]) fun _ => rfl
  have priority : e.opts.nullishProperty "priority" Json.asNumber = some e.event.job.opts.priority :=
    Json.nullishProperty_record names .number (by simp [JobOpts.fields, JsMap.get]) (fun _ => rfl) fun _ => rfl
  have delay : e.opts.optionalProperty "delay" Json.asNumber = some e.event.job.opts.delay :=
    Json.optionalProperty_record names .number (by simp [JobOpts.fields, JsMap.get]) fun _ => rfl
  have backoff : (e.opts.property "backoff").bind Json.Given.ofJson = e.event.job.opts.backoff :=
    Json.given_record names (.inl (by simp [JobOpts.fields, JsMap.get]))
  have parent : e.opts.property "parent" =
      e.event.job.opts.parentId.map fun id => .record (("id", some (.string id)) :: others e.parentRest) := by
    rw [opts, Json.property_record names]
    simp [JobOpts.fields, JsMap.get]
  have parentId : (e.opts.property "parent").elim (some none) (Json.nullishProperty "id" Json.asString) =
      some e.event.job.opts.parentId := by
    rw [parent]
    cases e.event.job.opts.parentId with
    | none => rfl
    | some id =>
        have parentNames : ((("id", some (Json.string id)) :: others e.parentRest).map Prod.fst).Nodup := e.parentNames
        exact Json.nullishProperty_record parentNames .string (by simp [JsMap.get]) (fun _ => rfl) fun _ => rfl
  simp only [JobOpts.ofJson, attempts, priority, delay, backoff, parentId]
  rfl

theorem ofJson_job : JobSnapshot.ofJson e.job = some e.event.job := by
  have names := e.jobNames_opts e.opts
  have id : e.job.nullishProperty "id" Json.asString = some e.event.job.id :=
    Json.nullishProperty_record names .string (by simp [JobSnapshot.fields, JsMap.get]) (fun _ => rfl) fun _ => rfl
  have name : e.job.nullishProperty "name" Json.asString = some e.event.job.name :=
    Json.nullishProperty_record names .string (by simp [JobSnapshot.fields, JsMap.get]) (fun _ => rfl) fun _ => rfl
  have optsOf : e.job.property "opts" = some e.opts := by
    rw [job, Json.property_record names]
    simp [JobSnapshot.fields, JsMap.get]
  have attemptsMade : e.job.property "attemptsMade" = some (.number e.event.job.attemptsMade) := by
    rw [job, Json.property_record names]
    simp [JobSnapshot.fields, JsMap.get]
  have timestamp : e.job.property "timestamp" = some (.number e.event.job.timestamp) := by
    rw [job, Json.property_record names]
    simp [JobSnapshot.fields, JsMap.get]
  have processedOn : e.job.nullishProperty "processedOn" Json.asNumber = some e.event.job.processedOn :=
    Json.nullishProperty_record names .number (by simp [JobSnapshot.fields, JsMap.get]) (fun _ => rfl) fun _ => rfl
  have finishedOn : e.job.nullishProperty "finishedOn" Json.asNumber = some e.event.job.finishedOn :=
    Json.nullishProperty_record names .number (by simp [JobSnapshot.fields, JsMap.get]) (fun _ => rfl) fun _ => rfl
  have failedReason : e.job.nullishProperty "failedReason" Json.asString = some e.event.job.failedReason :=
    Json.nullishProperty_record names .string (by simp [JobSnapshot.fields, JsMap.get]) (fun _ => rfl) fun _ => rfl
  have stacktrace : e.job.nullishProperty "stacktrace" Json.asStrings = some e.event.job.stacktrace :=
    Json.nullishProperty_ofOption names Json.strings (by simp [JobSnapshot.fields, JsMap.get])
      Json.asStrings_strings fun _ => rfl
  have repeatJobKey : e.job.nullishProperty "repeatJobKey" Json.asString = some e.event.job.repeatJobKey :=
    Json.nullishProperty_record names .string (by simp [JobSnapshot.fields, JsMap.get]) (fun _ => rfl) fun _ => rfl
  have data : (e.job.property "data").bind Json.Given.ofJson = e.event.job.data :=
    Json.given_record names (.inl (by simp [JobSnapshot.fields, JsMap.get]))
  have returnvalue : (e.job.property "returnvalue").bind Json.Given.ofJson = e.event.job.returnvalue :=
    Json.given_record names (.inr (by simp [JobSnapshot.fields, JsMap.get]))
  simp only [JobSnapshot.ofJson, id, name, optsOf, attemptsMade, timestamp, processedOn, finishedOn, failedReason,
    stacktrace, repeatJobKey, data, returnvalue, Option.bind_some, ofJson_opts]
  rfl

theorem jobSyncEventSchema_payload : jobSyncEventSchema e.payload = some e.event := by
  have names : ([("version", some (Json.number 1)), ("workerId", e.event.workerId.map Json.string),
      ("queueName", some (.string e.event.queueName)), ("phase", some (.string e.event.phase.text)),
      ("state", e.event.state.map .string), ("tags", e.event.tags.map Json.strings), ("job", some e.job)].map
        Prod.fst).Nodup := by simp
  have property (key : String) := Json.property_record names key
  have version : e.payload.property "version" = some (.number 1) := by simp [payload, property, JsMap.get]
  have eventId : e.payload.optionalProperty "eventId" Json.asString = some none := by
    simp [Json.optionalProperty, payload, property, JsMap.get]
  have workerId : e.payload.optionalProperty "workerId" Json.asString = some e.event.workerId :=
    Json.optionalProperty_record names .string (by simp [JsMap.get]) fun _ => rfl
  have queueName : e.payload.property "queueName" = some (.string e.event.queueName) := by
    simp [payload, property, JsMap.get]
  have phase : e.payload.optionalProperty "phase" (fun p => p.asString.bind JobSyncPhase.ofText) =
      some (some e.event.phase) := by
    simp [Json.optionalProperty, payload, property, JsMap.get, Json.asString, JobSyncPhase.ofText_text]
  have state : e.payload.optionalProperty "state" (fun p => p.asString.filter (· ∈ jobSyncStates)) =
      some e.event.state := by
    have accepted := e.state
    simp only [Json.optionalProperty, payload, property, JsMap.get, String.reduceEq, if_false, if_true,
      Option.join_some]
    generalize e.event.state = given at accepted
    cases given with
    | none => rfl
    | some state => simp [Json.asString, Option.filter, accepted state rfl]
  have tags : e.payload.optionalProperty "tags" Json.asStrings = some e.event.tags :=
    Json.optionalProperty_record names Json.strings (by simp [JsMap.get]) Json.asStrings_strings
  have job : e.payload.property "job" = some e.job := by simp [payload, property, JsMap.get]
  simp only [jobSyncEventSchema, version, eventId, workerId, queueName, phase, state, tags, job, Option.bind_some,
    ofJson_job]
  rfl

theorem opts_distinct : e.opts.Distinct := by
  have rest := e.values
  simp only [List.forall_mem_append] at rest
  refine Json.record_distinct e.optsNames ?_
  simp only [JobOpts.fields, List.forall_mem_append, List.forall_mem_cons]
  have number := Json.number_distinct
  refine ⟨⟨map_distinct number, map_distinct number, map_distinct number, map_distinct Json.Given.distinct,
    map_distinct fun id => ?_, by simp⟩, others_distinct rest.1.2⟩
  have parentNames : ((("id", some (Json.string id)) :: others e.parentRest).map Prod.fst).Nodup := e.parentNames
  refine Json.record_distinct parentNames ?_
  simp only [List.forall_mem_cons]
  exact ⟨by simp [Json.Distinct], others_distinct rest.2⟩

theorem job_distinct : e.job.Distinct := by
  have rest := e.values
  simp only [List.forall_mem_append] at rest
  refine Json.record_distinct (e.jobNames_opts e.opts) ?_
  simp only [JobSnapshot.fields, List.forall_mem_append, List.forall_mem_cons, Option.mem_some_iff, forall_eq']
  have text := Json.string_distinct
  have number := Json.number_distinct
  exact ⟨⟨map_distinct text, map_distinct Json.Given.distinct, e.opts_distinct, map_distinct text,
    ofOption_distinct Json.Given.distinct _, ofOption_distinct Json.strings_distinct _, trivial, trivial,
    map_distinct number, map_distinct number, map_distinct text, map_distinct text, by simp⟩,
    others_distinct rest.1.1⟩

theorem payload_distinct : e.payload.Distinct := by
  refine Json.record_distinct (by simp) ?_
  simp only [List.forall_mem_cons, Option.mem_some_iff, forall_eq']
  have text := Json.string_distinct
  exact ⟨trivial, map_distinct text, trivial, trivial, map_distinct text, map_distinct Json.strings_distinct,
    e.job_distinct, by simp⟩

/-- The ingestion reads the event as the worker had it. -/
theorem parseJobSyncEvent_payload : parseJobSyncEvent e.payload.stringify = some e.event := by
  rw [parseJobSyncEvent, Json.parse_stringify e.payload_distinct, Option.bind_some, jobSyncEventSchema_payload]

theorem validRun_emitted (id : Nat) : validRun parseJobSyncEvent (e.emitJobSyncEvent id) = e.row.map (id, ·) := by
  have given : truthyString (getField (e.emitJobSyncEvent id).fields "payload") = some e.payload.stringify := by
    refine truthyString_eq_some.mpr ⟨by simp [emitJobSyncEvent, getField, List.idxOf?_cons], fun empty => ?_⟩
    have chars := congrArg String.toList empty
    simp [Json.stringify, payload, Json.record, Json.chars] at chars
  simp only [validRun, given, parseJobSyncEvent_payload, Option.bind_some]
  rfl

/-- The run names the worker's queue and job, and carries the time of the job. -/
theorem row_target {run : JobRunInsert Json.Given} (accepted : e.row = some run) :
    run.target = some (e.event.queueName, run.jobId, e.event.job.timestamp) ∧
      truthyString e.event.job.id = some run.jobId := by
  obtain ⟨id, queue, enqueuedAt, -, -⟩ := formatJobRun_some accepted
  refine ⟨?_, id⟩
  rw [JobRunInsert.target, enqueuedAt, queue]
  rfl

end SentJob

namespace JobSystem

variable {autoDeletePostgresData : Option Int} {localeCompare : String → String → Ordering} {s : JobSystem Json.Given}
  {ts : List (Machine.Transition (JobSystem Json.Given) (JobAction Json.Given))}

/-- What has become of the jobs that were sent. -/
structure Accounted (autoDeletePostgresData : Option Int) (s : JobSystem Json.Given)
    (ts : List (Machine.Transition (JobSystem Json.Given) (JobAction Json.Given))) (sent : List (Nat × SentJob)) :
    Prop where
  /-- An entry is read as the run of the worker's own job. -/
  read : ∀ e ∈ sent, validRun parseJobSyncEvent (e.2.emitJobSyncEvent e.1) = e.2.row.map (e.1, ·)
  /-- A job that the columns can hold is still to be acknowledged, or has its one row,
      or was enqueued longer ago than the retention at some reading of the clock, or a
      deleted consumer held its entry. -/
  kept : ∀ e ∈ sent, ∀ run, e.2.row = some run → s.group.Unacknowledged (e.2.emitJobSyncEvent e.1) ∨
    (∃! row, row ∈ s.runs.rows ∧ row.target = some (e.2.event.queueName, run.jobId, e.2.event.job.timestamp)) ∨
      ExpiredIn autoDeletePostgresData ts e.2.event.job.timestamp ∨ DiscardedIn ts e.1

/-- On a stream that only workers write, no job is lost. -/
theorem sent_accounted {runs : JobRunsTable Json.Given} (dated : ∀ row ∈ runs.rows, row.Dated)
    (run : Machine.Run (step parseJobSyncEvent autoDeletePostgresData localeCompare) (start runs) ts s)
    {sent : List (Nat × SentJob)} (written : s.history = sent.map fun e => e.2.emitJobSyncEvent e.1)
    (plain : ∀ e ∈ sent, '-' ∉ e.2.event.queueName.toList ∧ 0 ≤ e.2.event.job.timestamp) :
    s.Accounted autoDeletePostgresData ts sent := by
  have apart : Apart parseJobSyncEvent s.history := by
    refine apart_of_plain fun m hm v valid => ?_
    rw [written] at hm
    obtain ⟨e, he, rfl⟩ := List.mem_map.mp hm
    rw [SentJob.validRun_emitted] at valid
    obtain ⟨run', accepted, rfl⟩ := Option.map_eq_some_iff.mp valid
    obtain ⟨-, queue, enqueuedAt, -⟩ := formatJobRun_some accepted
    refine ⟨queue ▸ (plain e he).1, fun time value => ?_⟩
    obtain rfl := Nullish.value.inj (enqueuedAt.symm.trans value)
    exact (plain e he).2
  have inv := inv_of_run run lasts_none dated apart fun x _ => respects_none x.act
  refine ⟨fun e _ => e.2.validRun_emitted e.1, fun e he run' accepted => ?_⟩
  have member : e.2.emitJobSyncEvent e.1 ∈ s.history := written ▸ List.mem_map_of_mem he
  have valid : validRun parseJobSyncEvent (e.2.emitJobSyncEvent e.1) = some (e.1, run') := by
    rw [SentJob.validRun_emitted, accepted]
    rfl
  have target := (e.2.row_target accepted).1
  refine (inv.fate member valid).imp id (Or.imp (fun held => ?_) (Or.imp (fun out => ?_) id))
  · obtain ⟨row, hrow, same, -⟩ := held
    refine ⟨row, ⟨hrow, same.trans target⟩, fun row' other => ?_⟩
    exact s.runs.eq_of_target other.1 hrow other.2 (same.trans target)
  · obtain ⟨time, enqueued, expired⟩ := out
    obtain ⟨-, -, enqueuedAt, -⟩ := formatJobRun_some accepted
    obtain rfl := Nullish.value.inj (enqueuedAt.symm.trans enqueued)
    exact expired

/-- A job with a payload, sent as it fails; its queue also gave it a priority. -/
def failedJob : SentJob where
  event := {
    workerId := some "w"
    queueName := "mail"
    phase := .terminal
    tags := some ["vip"]
    job := {
      id := some "1"
      name := some "send"
      data := some ⟨.object [("to", .string "a\"b"), ("copies", .array [.number 2, .null])], by decide, rfl⟩
      opts := { attempts := some 3 }
      timestamp := 1000
      finishedOn := some 2000
      failedReason := some "refused"
      stacktrace := some ["at line 1", "at line 2"] } }
  jobRest := [("progress", .number 0)]
  optsRest := [("removeOnComplete", .bool true)]
  state := by simp
  jobNames := by decide
  optsNames := by decide
  parentNames := by decide
  values := by decide

def failedJobRun : List (JobAction Json.Given) :=
  [.append (failedJob.emitJobSyncEvent 1), .readNew 0 10, .upsert 0 2100, .consumer 0 2100, .consumer 0 0,
    .consumer 0 0]

theorem failedJobRun_performed : (Machine.perform (step parseJobSyncEvent none compare) (start .empty) failedJobRun).any
    (fun r => r.2.history = [failedJob.emitJobSyncEvent 1] &&
      r.2.runs.rows.map (fun row => (row.jobId, row.status, row.errorStack)) =
        [("1", .failed, some "at line 1\nat line 2")]) = true := by
  decide +kernel

theorem sent_accounted_failed : ∃ (s : JobSystem Json.Given)
    (ts : List (Machine.Transition (JobSystem Json.Given) (JobAction Json.Given))),
    s.runs.rows.map (fun row => (row.jobId, row.status, row.errorStack)) =
      [("1", .failed, some "at line 1\nat line 2")] ∧ s.Accounted none ts [(1, failedJob)] := by
  obtain ⟨ts, s, run, read⟩ := Machine.run_of_perform failedJobRun_performed
  simp only [Bool.and_eq_true, decide_eq_true_eq] at read
  refine ⟨s, ts, read.2, sent_accounted (by simp [JobRunsTable.empty]) run (by simpa using read.1) ?_⟩
  simp only [List.forall_mem_singleton]
  decide

end JobSystem

end BetterBullBoard
