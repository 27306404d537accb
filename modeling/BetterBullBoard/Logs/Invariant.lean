import BetterBullBoard.Logs.System

/-! # What each party of the log ingestion owes

The invariant says what each party still owes: a consumer may acknowledge only
messages whose lines the tables hold, a resolver may delete only buffered rows
whose lines `job_logs` holds. Both debts are paid by statements that only ever
add to what the tables hold, so any interleaving and any stop keeps them.
-/

namespace BetterBullBoard

variable {J : Type}

/-- An event without the row or entry it was read from. -/
def LogEventForPersistence.line (e : LogEventForPersistence) : LogEventForPersistence := { e with id := none }

theorem LogEventForPersistence.identity_of_line {e e' : LogEventForPersistence} (h : e.line = e'.line) :
    e.identity = e'.identity := by
  simp only [line, LogEventForPersistence.mk.injEq] at h
  simp only [identity, h]

theorem LogEventForPersistence.plain_of_line {e e' : LogEventForPersistence} (h : e.line = e'.line)
    (plain : PlainQueue e) : PlainQueue e' := by
  have same : e.queue = e'.queue := congrArg LogIdentity.queue (identity_of_line h)
  simpa only [PlainQueue, same] using plain

namespace LogSystem

/-- The row is the line `l` of its run. -/
def IsLine (s : LogSystem J) (row : JobLog) (l : LogIdentity) : Prop :=
  (∃ run ∈ s.runs.rows, run.id = row.jobRunId ∧ run.target = some l.run) ∧
    row.ts = l.logTimestamp ∧ row.logSeq = l.logSeq

def InLogs (s : LogSystem J) (l : LogIdentity) : Prop := ∃ row ∈ s.logs.rows, s.IsLine row l

def InBuffer (s : LogSystem J) (l : LogIdentity) : Prop := ∃ row ∈ s.buffer.rows, row.identity = l

def Stored (s : LogSystem J) (l : LogIdentity) : Prop := s.InLogs l ∨ s.InBuffer l

/-- Two rows of one line would be two rows of one run, time and counter. -/
theorem line_once (s : LogSystem J) :
    s.logs.rows.Pairwise fun a b => ¬ ∃ l, s.IsLine a l ∧ s.IsLine b l := by
  refine s.logs.unique.imp fun {a b} apart both => apart ?_
  obtain ⟨l, ⟨⟨run, member, id, target⟩, ts, seq⟩, ⟨⟨run', member', id', target'⟩, ts', seq'⟩⟩ := both
  have same := s.runs.eq_of_target member member' target target'
  refine ⟨rfl, ?_⟩
  simp only [JobLog.target, ← id, ← id', same, ts, ts', seq, seq']

section

variable (parse : String → Option LogSyncEvent)

/-- The line of this event was appended to the stream. -/
def Appended (s : LogSystem J) (e : LogEventForPersistence) : Prop :=
  ∃ m ∈ s.history, (validEvent parse m).map (·.line) = some e.line

/-- An entry whose line, if it has one, is stored or is among the lines `owed`. -/
def Accounted (s : LogSystem J) (owed : List LogIdentity) (id : Nat) : Prop :=
  ∃ m ∈ s.history, m.id = id ∧ ∀ e, validEvent parse m = some e → s.Stored e.identity ∨ e.identity ∈ owed

/-- What a consumer knows about the work it still holds. -/
def ConsumerOwes (s : LogSystem J) : LogConsumer → Prop
  | .idle => True
  | .ackInvalid ids valid | .delInvalid ids valid =>
      (∀ id ∈ ids, s.Accounted parse [] id) ∧ ∀ e ∈ valid, ∃ m ∈ s.history, validEvent parse m = some e
  | .resolve events => ∀ e ∈ events, ∃ m ∈ s.history, validEvent parse m = some e
  | .insert chunks unresolved ids =>
      (∀ r ∈ chunks.flatten, s.Appended parse r.toLogEventForPersistence ∧ OwnRun s.runs r) ∧
        (∀ e ∈ unresolved, s.Appended parse e) ∧
          ∀ id ∈ ids, s.Accounted parse (chunks.flatten.map (·.identity) ++ unresolved.map (·.identity)) id
  | .buffer unresolved ids =>
      (∀ e ∈ unresolved, s.Appended parse e) ∧ ∀ id ∈ ids, s.Accounted parse (unresolved.map (·.identity)) id
  | .ack ids | .del ids => ∀ id ∈ ids, s.Accounted parse [] id

/-- A buffered row may go once its line is in `job_logs` or among these. -/
def Released (s : LogSystem J) (owed : List LogIdentity) (id : Nat) : Prop :=
  id < s.buffer.nextId ∧ ∀ row ∈ s.buffer.rows, row.id = id → s.InLogs row.identity ∨ row.identity ∈ owed

/-- What a resolver knows about the rows it read. -/
def ResolverOwes (s : LogSystem J) : LogResolver → Prop
  | .idle => True
  | .resolve rows => ∀ row ∈ rows, s.Appended parse row.event ∧ s.Released [row.identity] row.id
  | .insert chunks ids =>
      (∀ r ∈ chunks.flatten, s.Appended parse r.toLogEventForPersistence ∧ OwnRun s.runs r) ∧
        ∀ id ∈ ids, s.Released (chunks.flatten.map (·.identity)) id
  | .delete ids => ∀ id ∈ ids, s.Released [] id

/-- Entries are in the order of their ids, the group's position is one of them,
    and events name queues BullMQ accepts. -/
structure StreamOk (s : LogSystem J) : Prop where
  sorted : s.history.Pairwise fun a b => a.id < b.id
  entries : s.group.entries.Sublist s.history
  position : s.group.lastDelivered = 0 ∨ ∃ m ∈ s.history, s.group.lastDelivered = m.id
  plain : ∀ m ∈ s.history, ∀ e, validEvent parse m = some e → PlainQueue e

/-- Every row of either table comes from an appended event. -/
structure TablesOk (s : LogSystem J) : Prop where
  logs : ∀ row ∈ s.logs.rows, ∃ r : ResolvedLogEvent,
    s.Appended parse r.toLogEventForPersistence ∧ OwnRun s.runs r ∧ r.row = row
  buffer : ∀ row ∈ s.buffer.rows, s.Appended parse row.event

/-- Every valid event is still to be acknowledged, or held by a table. -/
def NothingLost (s : LogSystem J) : Prop :=
  ∀ m ∈ s.history, ∀ e, validEvent parse m = some e → s.group.Unacknowledged m ∨ s.Stored e.identity

structure Inv (s : LogSystem J) : Prop where
  stream : s.StreamOk parse
  tables : s.TablesOk parse
  kept : s.NothingLost parse
  consumers : ∀ i, s.ConsumerOwes parse (s.consumers i)
  resolvers : ∀ i, s.ResolverOwes parse (s.resolvers i)

end

/-- What every statement does to the history and the tables: nothing leaves
    them, except that a buffered row may once its line is in `job_logs`. -/
structure Grows (s s' : LogSystem J) : Prop where
  history : ∀ m ∈ s.history, m ∈ s'.history
  runs : ∀ run ∈ s.runs.rows, ∃ run' ∈ s'.runs.rows, run'.id = run.id ∧ run'.target = run.target
  logs : ∀ row ∈ s.logs.rows, row ∈ s'.logs.rows
  buffer : ∀ row ∈ s.buffer.rows, row ∈ s'.buffer.rows ∨ s'.InLogs row.identity
  nextId : s.buffer.nextId ≤ s'.buffer.nextId
  fresh : ∀ row ∈ s'.buffer.rows, row ∈ s.buffer.rows ∨ s.buffer.nextId ≤ row.id

namespace Grows

variable {s s' : LogSystem J}

/-- A step that touches none of them. -/
theorem of_same (history : s'.history = s.history) (runs : s'.runs = s.runs) (logs : s'.logs = s.logs)
    (buffer : s'.buffer = s.buffer) : Grows s s' where
  history := by simp [history]
  runs := fun run h => ⟨run, runs ▸ h, rfl, rfl⟩
  logs := by simp [logs]
  buffer := fun row h => .inl (buffer ▸ h)
  nextId := by rw [buffer]
  fresh := fun row h => .inl (buffer ▸ h)

theorem inLogs (g : Grows s s') {l : LogIdentity} (h : s.InLogs l) : s'.InLogs l := by
  obtain ⟨row, member, ⟨run, hrun, id, target⟩, rest⟩ := h
  obtain ⟨run', hrun', id', target'⟩ := g.runs run hrun
  exact ⟨row, g.logs row member, ⟨run', hrun', id'.trans id, target'.trans target⟩, rest⟩

theorem stored (g : Grows s s') {l : LogIdentity} (h : s.Stored l) : s'.Stored l := by
  cases h with
  | inl logged => exact .inl (g.inLogs logged)
  | inr buffered =>
      obtain ⟨row, member, rfl⟩ := buffered
      cases g.buffer row member with
      | inl still => exact .inr ⟨row, still, rfl⟩
      | inr logged => exact .inl logged

theorem ownRun (g : Grows s s') {r : ResolvedLogEvent} (h : OwnRun s.runs r) : OwnRun s'.runs r := by
  obtain ⟨run, hrun, id, target⟩ := h
  obtain ⟨run', hrun', id', target'⟩ := g.runs run hrun
  exact ⟨run', hrun', id'.trans id, target'.trans target⟩

variable {parse : String → Option LogSyncEvent}

theorem appended (g : Grows s s') {e : LogEventForPersistence} (h : s.Appended parse e) :
    s'.Appended parse e := by
  obtain ⟨m, member, valid⟩ := h
  exact ⟨m, g.history m member, valid⟩

/-- Lines that the step stored need not be accounted for any longer. -/
theorem accounted (g : Grows s s') {owed owed' : List LogIdentity} (paid : ∀ l ∈ owed, s'.Stored l ∨ l ∈ owed')
    {id : Nat} (h : s.Accounted parse owed id) : s'.Accounted parse owed' id := by
  obtain ⟨m, member, eq, held⟩ := h
  refine ⟨m, g.history m member, eq, fun e valid => ?_⟩
  cases held e valid with
  | inl stored => exact .inl (g.stored stored)
  | inr debt => exact paid _ debt

theorem released (g : Grows s s') {owed owed' : List LogIdentity} (paid : ∀ l ∈ owed, s'.InLogs l ∨ l ∈ owed')
    {id : Nat} (h : s.Released owed id) : s'.Released owed' id := by
  refine ⟨Nat.lt_of_lt_of_le h.1 g.nextId, fun row member eq => ?_⟩
  cases g.fresh row member with
  | inl old =>
      cases h.2 row old eq with
      | inl logged => exact .inl (g.inLogs logged)
      | inr debt => exact paid _ debt
  | inr new =>
      have := h.1
      omega

/-- A party that does not move owes what it owed. -/
theorem consumerOwes (g : Grows s s') {c : LogConsumer} (h : s.ConsumerOwes parse c) :
    s'.ConsumerOwes parse c := by
  have read : ∀ e, (∃ m ∈ s.history, validEvent parse m = some e) →
      ∃ m ∈ s'.history, validEvent parse m = some e := by
    intro e h
    obtain ⟨m, member, valid⟩ := h
    exact ⟨m, g.history m member, valid⟩
  have still : ∀ {owed : List LogIdentity} {ids : List Nat}, (∀ id ∈ ids, s.Accounted parse owed id) →
      ∀ id ∈ ids, s'.Accounted parse owed id :=
    fun known id hid => g.accounted (fun _ debt => .inr debt) (known id hid)
  cases c with
  | idle => trivial
  | ackInvalid ids valid => exact ⟨still h.1, fun e he => read e (h.2 e he)⟩
  | delInvalid ids valid => exact ⟨still h.1, fun e he => read e (h.2 e he)⟩
  | resolve events => exact fun e he => read e (h e he)
  | insert chunks unresolved ids =>
      exact ⟨fun r hr => ⟨g.appended (h.1 r hr).1, g.ownRun (h.1 r hr).2⟩,
        fun e he => g.appended (h.2.1 e he), still h.2.2⟩
  | buffer unresolved ids => exact ⟨fun e he => g.appended (h.1 e he), still h.2⟩
  | ack ids => exact still h
  | del ids => exact still h

theorem resolverOwes (g : Grows s s') {r : LogResolver} (h : s.ResolverOwes parse r) :
    s'.ResolverOwes parse r := by
  have still : ∀ {owed : List LogIdentity} {id : Nat}, s.Released owed id → s'.Released owed id :=
    g.released fun _ debt => .inr debt
  cases r with
  | idle => trivial
  | resolve rows => exact fun row hrow => ⟨g.appended (h row hrow).1, still (h row hrow).2⟩
  | insert chunks ids =>
      exact ⟨fun r hr => ⟨g.appended (h.1 r hr).1, g.ownRun (h.1 r hr).2⟩, fun id hid => still (h.2 id hid)⟩
  | delete ids => exact fun id hid => still (h id hid)

end Grows

section

variable {parse : String → Option LogSyncEvent} {s s' : LogSystem J}

theorem Appended.plain (ok : s.StreamOk parse) {e : LogEventForPersistence} (h : s.Appended parse e) :
    PlainQueue e := by
  obtain ⟨m, member, valid⟩ := h
  obtain ⟨e', found, line⟩ := Option.map_eq_some_iff.mp valid
  exact LogEventForPersistence.plain_of_line line (ok.plain m member e' found)

theorem appended_of_valid {e : LogEventForPersistence} (h : ∃ m ∈ s.history, validEvent parse m = some e) :
    s.Appended parse e := by
  obtain ⟨m, member, valid⟩ := h
  exact ⟨m, member, by rw [valid, Option.map_some]⟩

/-- An entry of this id is the entry accounted for: its line is stored. -/
theorem Accounted.stored (ok : s.StreamOk parse) {m : StreamMessage} (hm : m ∈ s.history)
    (h : s.Accounted parse [] m.id) {e : LogEventForPersistence} (valid : validEvent parse m = some e) :
    s.Stored e.identity := by
  obtain ⟨m', hm', id, held⟩ := h
  have distinct : (s.history.map (·.id)).Nodup :=
    List.pairwise_map.mpr (ok.sorted.imp fun less => Nat.ne_of_lt less)
  obtain rfl := List.inj_on_of_nodup_map distinct hm' hm id
  exact (held e valid).resolve_right List.not_mem_nil

theorem ownRun_inLogs {r : ResolvedLogEvent} (own : OwnRun s.runs r) {row : JobLog}
    (member : row ∈ s.logs.rows) (target : row.target = r.row.target) : s.InLogs r.identity := by
  simp only [JobLog.target, ResolvedLogEvent.row, Option.some.injEq, Prod.mk.injEq] at target
  exact ⟨row, member, target.1 ▸ own, target.2.1, target.2.2⟩

/-- A step of no party keeps the invariant if the tables grow. -/
theorem Inv.next (inv : s.Inv parse) (grows : Grows s s') (stream : s'.StreamOk parse)
    (tables : s'.TablesOk parse) (kept : s'.NothingLost parse) (consumers : s'.consumers = s.consumers)
    (resolvers : s'.resolvers = s.resolvers) : s'.Inv parse where
  stream := stream
  tables := tables
  kept := kept
  consumers := fun i => consumers ▸ grows.consumerOwes (inv.consumers i)
  resolvers := fun i => resolvers ▸ grows.resolverOwes (inv.resolvers i)

/-- A party may move to any point where it knows what it owes. -/
theorem Inv.setConsumer (inv : s.Inv parse) (i : Nat) {c : LogConsumer} (owes : s.ConsumerOwes parse c) :
    (s.setConsumer i c).Inv parse where
  stream := ⟨inv.stream.sorted, inv.stream.entries, inv.stream.position, inv.stream.plain⟩
  tables := ⟨inv.tables.logs, inv.tables.buffer⟩
  kept := inv.kept
  consumers := by
    have grows : Grows s (s.setConsumer i c) := .of_same rfl rfl rfl rfl
    exact (Function.forall_update_iff s.consumers fun _ c' => (s.setConsumer i c).ConsumerOwes parse c').mpr
      ⟨grows.consumerOwes owes, fun j _ => grows.consumerOwes (inv.consumers j)⟩
  resolvers := fun j => Grows.resolverOwes (.of_same rfl rfl rfl rfl) (inv.resolvers j)

theorem Inv.setResolver (inv : s.Inv parse) (i : Nat) {r : LogResolver} (owes : s.ResolverOwes parse r) :
    (s.setResolver i r).Inv parse where
  stream := ⟨inv.stream.sorted, inv.stream.entries, inv.stream.position, inv.stream.plain⟩
  tables := ⟨inv.tables.logs, inv.tables.buffer⟩
  kept := inv.kept
  consumers := fun j => Grows.consumerOwes (.of_same rfl rfl rfl rfl) (inv.consumers j)
  resolvers := by
    have grows : Grows s (s.setResolver i r) := .of_same rfl rfl rfl rfl
    exact (Function.forall_update_iff s.resolvers fun _ r' => (s.setResolver i r).ResolverOwes parse r').mpr
      ⟨grows.resolverOwes owes, fun j _ => grows.resolverOwes (inv.resolvers j)⟩

end

end LogSystem

end BetterBullBoard
