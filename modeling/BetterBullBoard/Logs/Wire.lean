import BetterBullBoard.Client.Logger
import BetterBullBoard.Lib.Json
import BetterBullBoard.Logs.OwnRows

/-! # Log events on the stream

A worker writes an event as JSON text, and the ingestion reads it back through its
schema. `XADD` gives the entry its id.
-/

namespace BetterBullBoard

def LogLevel.text : LogLevel → String
  | .log => "log"
  | .debug => "debug"
  | .info => "info"
  | .warn => "warn"
  | .error => "error"

/-- `z.enum(["log", "debug", "info", "warn", "error"])` -/
def LogLevel.ofText : String → Option LogLevel
  | "log" => some .log
  | "debug" => some .debug
  | "info" => some .info
  | "warn" => some .warn
  | "error" => some .error
  | _ => none

theorem LogLevel.ofText_text (level : LogLevel) : ofText level.text = some level := by cases level <;> rfl

namespace LogSyncEvent

/-- The payload of `emitJobLogSyncEvent`, for an event as `forward` makes it. -/
def payload (e : LogSyncEvent) : Json :=
  .object [("version", .number 1), ("workerId", .string e.workerId), ("jobId", .string e.jobId),
    ("queueName", .string e.queueName), ("logTimestamp", .number e.logTimestamp), ("logSeq", .number e.logSeq),
    ("jobTimestamp", .number e.jobTimestamp), ("message", .string e.message), ("level", .string e.level.text)]

/-- `XADD bbb:worker:job-logs * payload ..`, the entry of this id. -/
def emitJobLogSyncEvent (id : Nat) (e : LogSyncEvent) : StreamMessage := ⟨id, ["payload", e.payload.stringify]⟩

/-- `logSyncEventSchema.parse(value)` -/
def logSyncEventSchema (v : Json) : Option LogSyncEvent := do
  let version ← (v.property "version").bind Json.asNumber
  if version ≠ 1 then none
  let workerId ← (v.property "workerId").bind Json.asString
  let queueName ← (v.property "queueName").bind Json.asString
  let jobId ← (v.property "jobId").bind Json.asString
  let jobTimestamp ← (v.property "jobTimestamp").bind Json.asNumber
  let logTimestamp ← (v.property "logTimestamp").bind Json.asNumber
  let logSeq ← (v.property "logSeq").bind Json.asNumber
  let level ← ((v.property "level").bind Json.asString).bind LogLevel.ofText
  let message ← (v.property "message").bind Json.asString
  some { workerId, queueName, jobId, jobTimestamp, logTimestamp, logSeq, level, message }

def parseLogSyncEvent (payload : String) : Option LogSyncEvent := (Json.parse payload).bind logSyncEventSchema

theorem logSyncEventSchema_payload (e : LogSyncEvent) : logSyncEventSchema e.payload = some e := by
  simp [logSyncEventSchema, payload, Json.property, JsMap.get, Json.asNumber, Json.asString, LogLevel.ofText_text]

theorem payload_distinct (e : LogSyncEvent) : e.payload.Distinct := by
  simp [payload, Json.Distinct, Json.PropertiesDistinct]

/-- The ingestion reads what the worker emitted. -/
theorem parseLogSyncEvent_payload (e : LogSyncEvent) : parseLogSyncEvent e.payload.stringify = some e := by
  rw [parseLogSyncEvent, Json.parse_stringify e.payload_distinct, Option.bind_some, logSyncEventSchema_payload]

/-- An entry that a worker emitted is read as its line. -/
theorem validEvent_emitted (id : Nat) (e : LogSyncEvent) :
    ∃ e', validEvent parseLogSyncEvent (e.emitJobLogSyncEvent id) = some e' ∧ e'.line = e.line := by
  have given : truthyString (getField (e.emitJobLogSyncEvent id).fields "payload") = some e.payload.stringify := by
    refine truthyString_eq_some.mpr ⟨by simp [emitJobLogSyncEvent, getField, List.idxOf?_cons], fun empty => ?_⟩
    have chars := congrArg String.toList empty
    simp [Json.stringify, payload, Json.chars] at chars
  have read : (validEvent parseLogSyncEvent (e.emitJobLogSyncEvent id)).map (·.line) = some e.line := by
    rw [validEvent_line given, parseLogSyncEvent_payload]
    rfl
  exact Option.map_eq_some_iff.mp read

end LogSyncEvent

namespace LogSystem

variable {J : Type} {localeCompare : String → String → Ordering} {s : LogSystem J}

/-- The lines of a run among events that were emitted. -/
def linesEmitted (events : List (Nat × LogSyncEvent)) (run : String × String × Int) : List LogEventForPersistence :=
  ((events.map Prod.snd).filter fun e => e.run = run).map LogSyncEvent.line

/-- What the ingestion has made of these events. -/
structure Arrived (s : LogSystem J) (events : List (Nat × LogSyncEvent)) : Prop where
  /-- No event is lost. -/
  kept : ∀ e ∈ events, s.group.Unacknowledged (e.2.emitJobLogSyncEvent e.1) ∨ s.Stored e.2.line.identity
  /-- Every row has the level and the message of an event. -/
  carried : ∀ row ∈ s.logs.rows, ∃ e ∈ events, s.Carries row e.2.line
  /-- Where nothing of a run waits any longer, each of its lines has a row of its own,
      if no two of them are stamped alike. -/
  own : ∀ run, s.Ingested LogSyncEvent.parseLogSyncEvent run →
    ((linesEmitted events run).map (·.identity)).Nodup → s.OwnRows (linesEmitted events run)

theorem linesOfRun_emitted {events : List (Nat × LogSyncEvent)}
    (written : s.history = events.map fun e => e.2.emitJobLogSyncEvent e.1) (run : String × String × Int) :
    s.linesOfRun LogSyncEvent.parseLogSyncEvent run = linesEmitted events run := by
  rw [linesOfRun, linesEmitted, written]
  clear written
  induction events with
  | nil => rfl
  | cons e events ih =>
      obtain ⟨e', valid, line⟩ := LogSyncEvent.validEvent_emitted e.1 e.2
      have same : e'.identity = e.2.line.identity := LogEventForPersistence.identity_of_line line
      have sameRun : e'.identity.run = e.2.run := congrArg LogIdentity.run same
      simp only [List.map_cons, List.filterMap_cons, valid, List.filter_cons, sameRun, decide_eq_true_eq] at ih ⊢
      split
      · rw [List.map_cons, List.map_cons, ih, ← line]
      · exact ih

theorem emitted_arrives [DecidableEq J] {runs : JobRunsTable J}
    (reach : Machine.Reachable (step LogSyncEvent.parseLogSyncEvent localeCompare) (start runs) s)
    {events : List (Nat × LogSyncEvent)} (written : s.history = events.map fun e => e.2.emitJobLogSyncEvent e.1) :
    s.Arrived events := by
  have inv : s.Inv LogSyncEvent.parseLogSyncEvent := reach.invariant (fun _ _ _ inv h => inv.step h) (start_inv runs)
  refine ⟨fun e he => ?_, fun row hrow => ?_, fun run done distinct => ?_⟩
  · have member : e.2.emitJobLogSyncEvent e.1 ∈ s.history := written ▸ List.mem_map_of_mem he
    obtain ⟨e', valid, line⟩ := LogSyncEvent.validEvent_emitted e.1 e.2
    have same : e'.identity = e.2.line.identity := LogEventForPersistence.identity_of_line line
    exact same ▸ inv.kept _ member e' valid
  · obtain ⟨r, -, own, rfl⟩ := inv.tables.logs row hrow
    have line : s.IsLine r.row r.identity := ⟨own, rfl, rfl⟩
    obtain ⟨e, he, carries⟩ := inv.carried hrow line
    rw [linesOfRun_emitted written] at he
    obtain ⟨e', he', rfl⟩ := List.mem_map.mp he
    obtain ⟨event, hevent, rfl⟩ := List.mem_map.mp (List.mem_of_mem_filter he')
    exact ⟨event, hevent, carries⟩
  · rw [← linesOfRun_emitted written] at distinct ⊢
    exact ownRows runs reach done distinct

/-- A line whose message holds a quote and a line break. -/
def quotedEvent : LogSyncEvent where
  workerId := "1"
  queueName := "mail"
  jobId := "1"
  jobTimestamp := 1000
  logTimestamp := 1500
  logSeq := 0
  level := .warn
  message := "said \"no\"\n"

/-- It is emitted after its run was created, and ingested at once. -/
def quotedRun : List (LogAction Unit) :=
  [.createRuns {} [mailRun .active none], .append (quotedEvent.emitJobLogSyncEvent 1), .readNew 0 10] ++
    List.replicate 6 (.consumer 0 0)

theorem quotedRun_performed :
    (Machine.perform (step LogSyncEvent.parseLogSyncEvent compare) (start .empty) quotedRun).any
    (fun r => r.2.history = [quotedEvent.emitJobLogSyncEvent 1] &&
      r.2.logs.rows = [⟨0, .warn, "said \"no\"\n", 1500, 0⟩]) = true := by
  decide +kernel

theorem emitted_arrives_quoted : ∃ s : LogSystem Unit,
    s.logs.rows = [⟨0, .warn, "said \"no\"\n", 1500, 0⟩] ∧ s.Arrived [(1, quotedEvent)] := by
  obtain ⟨ts, s, run, read⟩ := Machine.run_of_perform quotedRun_performed
  simp only [Bool.and_eq_true, decide_eq_true_eq] at read
  exact ⟨s, read.2, emitted_arrives ⟨ts, run⟩ (by simpa using read.1)⟩

end LogSystem

end BetterBullBoard
