import BetterBullBoard.Lib.Machine
import BetterBullBoard.Job.Upsert
import BetterBullBoard.Logs.Persist
import BetterBullBoard.Streams.Group

/-! # Log ingestion as a step machine

Any number of consumers of the log stream and of resolvers of the buffer run
side by side with the creation of job runs. A consumer's or resolver's step is
its next statement; between any two statements it may stop for good, by a crash
or because the statement failed, and forget what it was doing. Locks are left
out: everything holds without them.
-/

namespace BetterBullBoard

variable {J : Type}

section

variable (parse : String → Option LogSyncEvent)

/-- The event of a message, with the id of the message. `parse` is `JSON.parse`
    followed by `logSyncEventSchema.parse`, none where one of them throws. -/
def validEvent (m : StreamMessage) : Option LogEventForPersistence :=
  match truthyString (getField m.fields "payload") with
  | none => none
  | some payload =>
      (parse payload).map fun event => {
        id := some m.id
        queue := event.queueName
        jobId := event.jobId
        jobTimestamp := event.jobTimestamp
        logTimestamp := event.logTimestamp
        logSeq := event.logSeq
        level := event.level
        message := event.message }

theorem validEvent_id {m : StreamMessage} {e : LogEventForPersistence} (h : validEvent parse m = some e) :
    e.id = some m.id := by
  unfold validEvent at h
  split at h
  · simp at h
  · obtain ⟨event, -, rfl⟩ := Option.map_eq_some_iff.mp h
    rfl

def validEvents (messages : List StreamMessage) : List LogEventForPersistence :=
  messages.filterMap (validEvent parse)

def invalidIds (messages : List StreamMessage) : List Nat :=
  (messages.filter fun m => (validEvent parse m).isNone).map (·.id)

end

/-- Where a consumer stands in `processMessages` and `persistLogEvents`. -/
inductive LogConsumer where
  | idle
  | ackInvalid (ids : List Nat) (valid : List LogEventForPersistence)
  | delInvalid (ids : List Nat) (valid : List LogEventForPersistence)
  | resolve (events : List LogEventForPersistence)
  | insert (chunks : List (List ResolvedLogEvent)) (unresolved : List LogEventForPersistence) (ids : List Nat)
  | buffer (unresolved : List LogEventForPersistence) (ids : List Nat)
  | ack (ids : List Nat)
  | del (ids : List Nat)
  deriving Repr, DecidableEq

/-- Where a resolver stands in `resolveBufferedJobLogs`. -/
inductive LogResolver where
  | idle
  | resolve (rows : List JobLogBufferRow)
  | insert (chunks : List (List ResolvedLogEvent)) (ids : List Nat)
  | delete (ids : List Nat)
  deriving Repr, DecidableEq

structure LogSystem (J : Type) where
  /-- Every entry ever appended. -/
  history : List StreamMessage := []
  group : Group := {}
  runs : JobRunsTable J
  logs : JobLogsTable := .empty
  buffer : JobLogBufferTable := .empty
  consumers : Nat → LogConsumer := fun _ => .idle
  resolvers : Nat → LogResolver := fun _ => .idle

inductive LogAction (J : Type) where
  /-- A worker appends an entry. -/
  | append (m : StreamMessage)
  /-- Any call of `upsertJobRuns`. -/
  | createRuns (ctx : UpsertContext) (runs : List (JobRunInsert J))
  | readNew (i : Nat) (count : Nat)
  | claim (i : Nat) (ids : List Nat)
  | consumer (i : Nat) (now : Int)
  | consumerStops (i : Nat)
  | readBuffer (i : Nat) (rows : List JobLogBufferRow)
  | resolver (i : Nat)
  | resolverStops (i : Nat)

namespace LogSystem

def setConsumer (s : LogSystem J) (i : Nat) (c : LogConsumer) : LogSystem J :=
  { s with consumers := Function.update s.consumers i c }

def setResolver (s : LogSystem J) (i : Nat) (r : LogResolver) : LogSystem J :=
  { s with resolvers := Function.update s.resolvers i r }

section

variable (parse : String → Option LogSyncEvent) (localeCompare : String → String → Ordering)

/-- The branch `processMessages` takes on the messages it was given. -/
def startProcessing (messages : List StreamMessage) : LogConsumer :=
  if invalidIds parse messages ≠ [] then .ackInvalid (invalidIds parse messages) (validEvents parse messages)
  else if validEvents parse messages = [] then .idle
  else .resolve (validEvents parse messages)

/-- After the lookup: `insertResolvedLogs`, then `bufferUnresolvedLogs`. -/
def afterLookup (runs : JobRunsTable J) (events : List LogEventForPersistence) : LogConsumer :=
  let jobRunIds := resolveJobRunIds runs events
  .insert (insertChunks localeCompare (resolved jobRunIds events)) (unresolved jobRunIds events)
    (events.filterMap (·.id))

/-- The next statement of a consumer. -/
def consumerStep (s : LogSystem J) (i : Nat) (now : Int) : LogConsumer → Option (LogSystem J)
  | .idle => none
  | .ackInvalid ids valid => some ({ s with group := s.group.ack ids }.setConsumer i (.delInvalid ids valid))
  | .delInvalid ids valid =>
      some ({ s with group := s.group.delete ids }.setConsumer i (if valid = [] then .idle else .resolve valid))
  | .resolve events => some (s.setConsumer i (afterLookup localeCompare s.runs events))
  | .insert (chunk :: chunks) unresolved ids =>
      some ({ s with logs := s.logs.insert (chunk.map ResolvedLogEvent.row) }.setConsumer i
        (.insert chunks unresolved ids))
  | .insert [] unresolved ids => some (s.setConsumer i (.buffer unresolved ids))
  | .buffer unresolved ids => some ({ s with buffer := s.buffer.insert now unresolved }.setConsumer i (.ack ids))
  | .ack ids => some ({ s with group := s.group.ack ids }.setConsumer i (.del ids))
  | .del ids => some ({ s with group := s.group.delete ids }.setConsumer i .idle)

/-- The next statement of a resolver. -/
def resolverStep (s : LogSystem J) (i : Nat) : LogResolver → Option (LogSystem J)
  | .idle => none
  | .resolve rows =>
      let events := rows.map (·.event)
      let found := resolved (resolveJobRunIds s.runs events) events
      some (s.setResolver i (.insert (insertChunks localeCompare found) (found.filterMap (·.id))))
  | .insert (chunk :: chunks) ids =>
      some ({ s with logs := s.logs.insert (chunk.map ResolvedLogEvent.row) }.setResolver i (.insert chunks ids))
  | .insert [] ids => some (s.setResolver i (.delete ids))
  | .delete ids => some ({ s with buffer := s.buffer.delete ids }.setResolver i .idle)

/-- A new entry comes after `0-0` and all earlier ones, and its queue, if it is a
    valid event, is one BullMQ accepts. -/
def appendable (s : LogSystem J) (m : StreamMessage) : Bool :=
  0 < m.id && s.history.all (·.id < m.id) && (validEvent parse m).all (PlainQueue ·)

variable [DecidableEq J]

def step (s : LogSystem J) : LogAction J → Option (LogSystem J)
  | .append m =>
      if appendable parse s m then some { s with history := s.history ++ [m], group := s.group.add m } else none
  | .createRuns ctx runs => some { s with runs := (upsertJobRuns ctx runs s.runs).1 }
  | .readNew i count =>
      if s.consumers i = .idle then
        some ({ s with group := s.group.deliver count }.setConsumer i
          (startProcessing parse (s.group.newMessages count)))
      else none
  | .claim i ids =>
      if s.consumers i = .idle then
        some (s.setConsumer i (startProcessing parse (s.group.claimed ids)))
      else none
  | .consumer i now => consumerStep localeCompare s i now (s.consumers i)
  | .consumerStops i => some (s.setConsumer i .idle)
  | .readBuffer i rows =>
      if s.resolvers i = .idle ∧ ∀ r ∈ rows, r ∈ s.buffer.rows then some (s.setResolver i (.resolve rows)) else none
  | .resolver i => resolverStep localeCompare s i (s.resolvers i)
  | .resolverStops i => some (s.setResolver i .idle)

end

end LogSystem

end BetterBullBoard
