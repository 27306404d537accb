import BetterBullBoard.Logs.Invariant

/-! # No log line is lost or stored twice

Every statement keeps the invariant, whichever party runs it and whoever stops
in between.
-/

namespace BetterBullBoard

variable {J : Type}

namespace LogSystem

section

variable {parse : String → Option LogSyncEvent} {s s' : LogSystem J}

/-- A command on the stream, if it forgets no entry whose line is not stored. -/
theorem Inv.setGroup (inv : s.Inv parse) {g : Group} (entries : g.entries.Sublist s.history)
    (position : g.lastDelivered = 0 ∨ ∃ m ∈ s.history, g.lastDelivered = m.id)
    (kept : ∀ m ∈ s.history, ∀ e, validEvent parse m = some e → s.group.Unacknowledged m →
      g.Unacknowledged m ∨ s.Stored e.identity) : { s with group := g }.Inv parse := by
  refine inv.next (.of_same rfl rfl rfl rfl) ⟨inv.stream.sorted, entries, position, inv.stream.plain⟩
    ⟨inv.tables.logs, inv.tables.buffer⟩ (fun m member e valid => ?_) rfl rfl
  cases inv.kept m member e valid with
  | inl waiting => exact kept m member e valid waiting
  | inr stored => exact .inr stored

theorem Inv.ack (inv : s.Inv parse) {ids : List Nat} (done : ∀ id ∈ ids, s.Accounted parse [] id) :
    { s with group := s.group.ack ids }.Inv parse := by
  refine inv.setGroup inv.stream.entries inv.stream.position fun m member e valid waiting => ?_
  cases Decidable.em (m.id ∈ ids) with
  | inl acked => exact .inr ((done m.id acked).stored inv.stream member valid)
  | inr other => exact .inl (waiting.ack other)

theorem Inv.delete (inv : s.Inv parse) {ids : List Nat} (done : ∀ id ∈ ids, s.Accounted parse [] id) :
    { s with group := s.group.delete ids }.Inv parse := by
  refine inv.setGroup (List.filter_sublist.trans inv.stream.entries) inv.stream.position
    fun m member e valid waiting => ?_
  cases Decidable.em (m.id ∈ ids) with
  | inl deleted => exact .inr ((done m.id deleted).stored inv.stream member valid)
  | inr other => exact .inl (waiting.delete other)

theorem Inv.deliver (inv : s.Inv parse) (count : Nat) : { s with group := s.group.deliver count }.Inv parse := by
  refine inv.setGroup inv.stream.entries ?_ fun m _ e _ waiting =>
    .inl (waiting.deliver count (inv.stream.sorted.sublist inv.stream.entries))
  cases Group.lastDelivered_deliver s.group count with
  | inl same => exact same ▸ inv.stream.position
  | inr moved =>
      obtain ⟨m, member, position⟩ := moved
      exact .inr ⟨m, inv.stream.entries.subset member, position⟩

theorem Inv.append (inv : s.Inv parse) {m : StreamMessage} (ok : appendable parse s m) :
    { s with history := s.history ++ [m], group := s.group.add m }.Inv parse := by
  simp only [appendable, Bool.and_eq_true, decide_eq_true_eq, List.all_eq_true] at ok
  obtain ⟨⟨positive, last⟩, plain⟩ := ok
  refine inv.next ⟨fun _ h => List.mem_append_left _ h, fun run h => ⟨run, h, rfl, rfl⟩, fun _ h => h,
    fun _ h => .inl h, Nat.le_refl _, fun _ h => .inl h⟩ ?_ ?_ ?_ rfl rfl
  · refine ⟨List.pairwise_append.mpr ⟨inv.stream.sorted, by simp, by simpa using last⟩,
      inv.stream.entries.append (List.Sublist.refl _), ?_, ?_⟩
    · cases inv.stream.position with
      | inl start => exact .inl start
      | inr waiting =>
          obtain ⟨m', member, position⟩ := waiting
          exact .inr ⟨m', List.mem_append_left _ member, position⟩
    · intro m' member e valid
      cases List.mem_append.mp member with
      | inl old => exact inv.stream.plain m' old e valid
      | inr new =>
          obtain rfl := List.mem_singleton.mp new
          simpa [valid] using plain
  · have grown : ∀ e, s.Appended parse e →
        Appended parse { s with history := s.history ++ [m], group := s.group.add m } e := by
      intro e h
      obtain ⟨m', member, valid⟩ := h
      exact ⟨m', List.mem_append_left _ member, valid⟩
    refine ⟨fun row hrow => ?_, fun row hrow => grown _ (inv.tables.buffer row hrow)⟩
    obtain ⟨r, appended, rest⟩ := inv.tables.logs row hrow
    exact ⟨r, grown _ appended, rest⟩
  · intro m' member e valid
    cases List.mem_append.mp member with
    | inl old => exact (inv.kept m' old e valid).imp (fun waiting => waiting.add m) fun stored => stored
    | inr new =>
        obtain rfl := List.mem_singleton.mp new
        refine .inl ⟨List.mem_append_right _ (by simp), .inl ?_⟩
        cases inv.stream.position with
        | inl start => exact lt_of_eq_of_lt start positive
        | inr waiting =>
            obtain ⟨m'', member, position⟩ := waiting
            exact lt_of_eq_of_lt position (last m'' member)

theorem Inv.createRuns [DecidableEq J] (inv : s.Inv parse) (ctx : UpsertContext) (runs : List (JobRunInsert J)) :
    { s with runs := (upsertJobRuns ctx runs s.runs).1 }.Inv parse := by
  have survive : JobRunsTable.Survives (fun a b : JobRun J => b.id = a.id ∧ b.target = a.target) s.runs
      (upsertJobRuns ctx runs s.runs).1 :=
    JobRunsTable.upsert_survives (fun _ => ⟨rfl, rfl⟩)
      (fun _ _ _ h h' => ⟨h'.1.trans h.1, h'.2.trans h.2⟩) ctx runs
      (fun old id run _ same _ => ⟨onConflict_id _ _, by rw [onConflict_target, same]⟩) s.runs
  have grows : Grows s { s with runs := (upsertJobRuns ctx runs s.runs).1 } :=
    ⟨fun _ h => h, survive, fun _ h => h, fun _ h => .inl h, Nat.le_refl _, fun _ h => .inl h⟩
  refine inv.next grows ⟨inv.stream.sorted, inv.stream.entries, inv.stream.position, inv.stream.plain⟩
    ⟨fun row hrow => ?_, inv.tables.buffer⟩
    (fun m member e valid => (inv.kept m member e valid).imp id grows.stored) rfl rfl
  obtain ⟨r, appended, own, eq⟩ := inv.tables.logs row hrow
  exact ⟨r, appended, grows.ownRun own, eq⟩

/-- Inserting lines of known runs: afterwards `job_logs` holds them. -/
theorem Inv.insertLogs (inv : s.Inv parse) {chunk : List ResolvedLogEvent}
    (known : ∀ r ∈ chunk, s.Appended parse r.toLogEventForPersistence ∧ OwnRun s.runs r) :
    { s with logs := s.logs.insert (chunk.map ResolvedLogEvent.row) }.Inv parse ∧
      Grows s { s with logs := s.logs.insert (chunk.map ResolvedLogEvent.row) } ∧
        ∀ r ∈ chunk, InLogs { s with logs := s.logs.insert (chunk.map ResolvedLogEvent.row) } r.identity := by
  obtain ⟨stay, held⟩ := JobLogsTable.insert_holds s.logs (chunk.map ResolvedLogEvent.row)
  have grows : Grows s { s with logs := s.logs.insert (chunk.map ResolvedLogEvent.row) } :=
    ⟨fun _ h => h, fun run h => ⟨run, h, rfl, rfl⟩, stay, fun _ h => .inl h, Nat.le_refl _, fun _ h => .inl h⟩
  refine ⟨?_, grows, fun r hr => ?_⟩
  · refine inv.next grows ⟨inv.stream.sorted, inv.stream.entries, inv.stream.position, inv.stream.plain⟩
      ⟨fun row hrow => ?_, inv.tables.buffer⟩
      (fun m member e valid => (inv.kept m member e valid).imp id grows.stored) rfl rfl
    cases JobLogsTable.mem_insert hrow with
    | inl old => exact inv.tables.logs row old
    | inr new =>
        obtain ⟨r, hr, rfl⟩ := List.mem_map.mp new
        exact ⟨r, (known r hr).1, (known r hr).2, rfl⟩
  · obtain ⟨row, member, target⟩ := held r.row (List.mem_map.mpr ⟨r, hr, rfl⟩)
    exact ownRun_inLogs (known r hr).2 member target

/-- Buffering events: afterwards the buffer holds their lines. -/
theorem Inv.insertBuffer (inv : s.Inv parse) (now : Int) {events : List LogEventForPersistence}
    (known : ∀ e ∈ events, s.Appended parse e) :
    { s with buffer := s.buffer.insert now events }.Inv parse ∧
      Grows s { s with buffer := s.buffer.insert now events } ∧
        ∀ e ∈ events, Stored { s with buffer := s.buffer.insert now events } e.identity := by
  obtain ⟨stay, held⟩ := JobLogBufferTable.insert_holds now s.buffer events
  have grows : Grows s { s with buffer := s.buffer.insert now events } :=
    ⟨fun _ h => h, fun run h => ⟨run, h, rfl, rfl⟩, fun _ h => h, fun row h => .inl (stay row h),
      JobLogBufferTable.nextId_insert now s.buffer events,
      fun row h => (JobLogBufferTable.mem_insert h).imp id fun new => new.1⟩
  refine ⟨?_, grows, fun e he => .inr (held e he)⟩
  refine inv.next grows ⟨inv.stream.sorted, inv.stream.entries, inv.stream.position, inv.stream.plain⟩
    ⟨inv.tables.logs, fun row hrow => ?_⟩
    (fun m member e valid => (inv.kept m member e valid).imp id grows.stored) rfl rfl
  cases JobLogBufferTable.mem_insert hrow with
  | inl old => exact inv.tables.buffer row old
  | inr new =>
      obtain ⟨-, e, he, eq⟩ := new
      obtain ⟨m, member, valid⟩ := known e he
      exact ⟨m, member, by rw [valid, eq]; rfl⟩

/-- Deleting buffered rows whose lines `job_logs` holds. -/
theorem Inv.deleteBuffer (inv : s.Inv parse) {ids : List Nat} (done : ∀ id ∈ ids, s.Released [] id) :
    { s with buffer := s.buffer.delete ids }.Inv parse := by
  have grows : Grows s { s with buffer := s.buffer.delete ids } := by
    refine ⟨fun _ h => h, fun run h => ⟨run, h, rfl, rfl⟩, fun _ h => h, fun row h => ?_, Nat.le_refl _,
      fun row h => .inl (JobLogBufferTable.mem_delete.mp h).1⟩
    cases Decidable.em (row.id ∈ ids) with
    | inl gone => exact .inr (((done row.id gone).2 row h rfl).resolve_right List.not_mem_nil)
    | inr stays => exact .inl (JobLogBufferTable.mem_delete.mpr ⟨h, stays⟩)
  exact inv.next grows ⟨inv.stream.sorted, inv.stream.entries, inv.stream.position, inv.stream.plain⟩
    ⟨inv.tables.logs, fun row hrow => inv.tables.buffer row (JobLogBufferTable.mem_delete.mp hrow).1⟩
    (fun m member e valid => (inv.kept m member e valid).imp id grows.stored) rfl rfl

/-- Inserting the next chunk: what is left is known as before, and what was owed is in `job_logs` or left. -/
theorem Inv.insertChunk (inv : s.Inv parse) {chunk : List ResolvedLogEvent} {chunks : List (List ResolvedLogEvent)}
    (known : ∀ r ∈ (chunk :: chunks).flatten, s.Appended parse r.toLogEventForPersistence ∧ OwnRun s.runs r) :
    let s' := { s with logs := s.logs.insert (chunk.map ResolvedLogEvent.row) }
    s'.Inv parse ∧ Grows s s' ∧
      (∀ r ∈ chunks.flatten, s'.Appended parse r.toLogEventForPersistence ∧ OwnRun s'.runs r) ∧
      ∀ l ∈ (chunk :: chunks).flatten.map (·.identity), s'.InLogs l ∨ l ∈ chunks.flatten.map (·.identity) := by
  simp only [List.flatten_cons, List.forall_mem_append] at known
  obtain ⟨inv', grows, logged⟩ := inv.insertLogs known.1
  refine ⟨inv', grows, fun r hr => ?_, fun l debt => ?_⟩
  · exact ⟨grows.appended (known.2 r hr).1, grows.ownRun (known.2 r hr).2⟩
  · rw [List.flatten_cons, List.map_append] at debt
    cases List.mem_append.mp debt with
    | inl inserted =>
        obtain ⟨r, hr, rfl⟩ := List.mem_map.mp inserted
        exact .inl (logged r hr)
    | inr later => exact .inr later

variable {localeCompare : String → String → Ordering}

/-- The messages a consumer was given are entries, so it starts owing nothing. -/
theorem startProcessing_owes {messages : List StreamMessage} (given : ∀ m ∈ messages, m ∈ s.history) :
    s.ConsumerOwes parse (startProcessing parse messages) := by
  have valid : ∀ e ∈ validEvents parse messages, ∃ m ∈ s.history, validEvent parse m = some e := by
    intro e he
    obtain ⟨m, member, valid⟩ := List.mem_filterMap.mp he
    exact ⟨m, given m member, valid⟩
  unfold startProcessing
  split
  · refine ⟨fun id hid => ?_, valid⟩
    obtain ⟨m, member, rfl⟩ := List.mem_map.mp hid
    obtain ⟨member, invalid⟩ := List.mem_filter.mp member
    refine ⟨m, given m member, rfl, fun e valid => ?_⟩
    simp [valid] at invalid
  · split
    · trivial
    · exact valid

/-- Every event of a batch goes to the insert or to the buffer. -/
theorem afterLookup_owes (ok : s.StreamOk parse) {events : List LogEventForPersistence}
    (read : ∀ e ∈ events, ∃ m ∈ s.history, validEvent parse m = some e) :
    s.ConsumerOwes parse (afterLookup localeCompare s.runs events) := by
  have appended : ∀ e ∈ events, s.Appended parse e := fun e he => appended_of_valid (read e he)
  have plain : ∀ e ∈ events, PlainQueue e := fun e he => (appended e he).plain ok
  refine ⟨fun r hr => ?_, fun e he => appended e (List.mem_filter.mp he).1, fun id hid => ?_⟩
  · obtain ⟨member, own⟩ := (mem_resolved plain).mp (mem_insertChunks.mp hr)
    exact ⟨appended _ member, own⟩
  · obtain ⟨e, he, eid⟩ := List.mem_filterMap.mp hid
    obtain ⟨m, member, valid⟩ := read e he
    rw [validEvent_id parse valid, Option.some.injEq] at eid
    refine ⟨m, member, eid, fun e' valid' => .inr ?_⟩
    obtain rfl := Option.some.inj (valid.symm.trans valid')
    cases resolved_or_unresolved (resolveJobRunIds s.runs events) he with
    | inl found =>
        obtain ⟨r, hr, rfl⟩ := found
        exact List.mem_append_left _ (List.mem_map.mpr ⟨r, mem_insertChunks.mpr hr, rfl⟩)
    | inr missing => exact List.mem_append_right _ (List.mem_map.mpr ⟨e, missing, rfl⟩)

theorem Inv.consumerStep (inv : s.Inv parse) {i : Nat} {now : Int} {c : LogConsumer}
    (owes : s.ConsumerOwes parse c) (h : consumerStep localeCompare s i now c = some s') : s'.Inv parse := by
  cases c with
  | idle => simp [LogSystem.consumerStep] at h
  | ackInvalid ids valid =>
      obtain rfl := Option.some.inj h
      exact (inv.ack owes.1).setConsumer i owes
  | delInvalid ids valid =>
      obtain rfl := Option.some.inj h
      apply (inv.delete owes.1).setConsumer i
      split
      · trivial
      · exact owes.2
  | resolve events =>
      obtain rfl := Option.some.inj h
      exact inv.setConsumer i (afterLookup_owes inv.stream owes)
  | insert chunks unresolved ids =>
      obtain ⟨known, buffered, held⟩ := owes
      cases chunks with
      | nil =>
          obtain rfl := Option.some.inj h
          exact inv.setConsumer i ⟨buffered, held⟩
      | cons chunk chunks =>
          obtain rfl := Option.some.inj h
          obtain ⟨inv', grows, left, paid⟩ := inv.insertChunk known
          refine inv'.setConsumer i ⟨left, fun e he => grows.appended (buffered e he), fun id hid => ?_⟩
          refine grows.accounted (fun l debt => ?_) (held id hid)
          cases List.mem_append.mp debt with
          | inl line => exact (paid l line).imp .inl (List.mem_append_left _)
          | inr line => exact .inr (List.mem_append_right _ line)
  | buffer unresolved ids =>
      obtain rfl := Option.some.inj h
      obtain ⟨inv', grows, buffered⟩ := inv.insertBuffer now owes.1
      refine inv'.setConsumer i fun id hid => grows.accounted (fun l debt => ?_) (owes.2 id hid)
      obtain ⟨e, he, rfl⟩ := List.mem_map.mp debt
      exact .inl (buffered e he)
  | ack ids =>
      obtain rfl := Option.some.inj h
      exact (inv.ack owes).setConsumer i owes
  | del ids =>
      obtain rfl := Option.some.inj h
      exact (inv.delete owes).setConsumer i trivial

theorem Inv.resolverStep (inv : s.Inv parse) {i : Nat} {r : LogResolver}
    (owes : s.ResolverOwes parse r) (h : resolverStep localeCompare s i r = some s') : s'.Inv parse := by
  cases r with
  | idle => simp [LogSystem.resolverStep] at h
  | resolve rows =>
      obtain rfl := Option.some.inj h
      have plain : ∀ e ∈ rows.map (·.event), PlainQueue e := by
        intro e he
        obtain ⟨row, hrow, rfl⟩ := List.mem_map.mp he
        exact (owes row hrow).1.plain inv.stream
      -- a resolved event is the event of a row that was read
      have origin : ∀ r ∈ resolved (resolveJobRunIds s.runs (rows.map (·.event))) (rows.map (·.event)),
          OwnRun s.runs r ∧ ∃ row ∈ rows, row.event = r.toLogEventForPersistence := by
        intro r hr
        obtain ⟨member, own⟩ := (mem_resolved plain).mp hr
        exact ⟨own, List.mem_map.mp member⟩
      refine inv.setResolver i ⟨fun r hr => ?_, fun id hid => ?_⟩
      · obtain ⟨own, row, hrow, eq⟩ := origin r (mem_insertChunks.mp hr)
        exact ⟨eq ▸ (owes row hrow).1, own⟩
      · obtain ⟨r, hr, rid⟩ := List.mem_filterMap.mp hid
        obtain ⟨-, row, hrow, eq⟩ := origin r hr
        rw [← eq] at rid
        obtain rfl := Option.some.inj rid
        refine Grows.released (.of_same rfl rfl rfl rfl) (fun l debt => .inr ?_) (owes row hrow).2
        obtain rfl := List.mem_singleton.mp debt
        exact List.mem_map.mpr ⟨r, mem_insertChunks.mpr hr, by rw [← eq, JobLogBufferRow.event_identity]⟩
  | insert chunks ids =>
      obtain ⟨known, held⟩ := owes
      cases chunks with
      | nil =>
          obtain rfl := Option.some.inj h
          exact inv.setResolver i held
      | cons chunk chunks =>
          obtain rfl := Option.some.inj h
          obtain ⟨inv', grows, left, paid⟩ := inv.insertChunk known
          exact inv'.setResolver i ⟨left, fun id hid => grows.released paid (held id hid)⟩
  | delete ids =>
      obtain rfl := Option.some.inj h
      exact (inv.deleteBuffer owes).setResolver i trivial

theorem Inv.step [DecidableEq J] {a : LogAction J} (inv : s.Inv parse)
    (h : step parse localeCompare s a = some s') : s'.Inv parse := by
  cases a with
  | append m =>
      obtain ⟨ok, eq⟩ := Option.ite_none_right_eq_some.mp h
      obtain rfl := Option.some.inj eq
      exact inv.append ok
  | createRuns ctx runs =>
      obtain rfl := Option.some.inj h
      exact inv.createRuns ctx runs
  | readNew i count =>
      obtain ⟨-, eq⟩ := Option.ite_none_right_eq_some.mp h
      obtain rfl := Option.some.inj eq
      exact (inv.deliver count).setConsumer i
        (startProcessing_owes fun m hm => inv.stream.entries.subset (Group.newMessages_mem hm))
  | claim i ids =>
      obtain ⟨-, eq⟩ := Option.ite_none_right_eq_some.mp h
      obtain rfl := Option.some.inj eq
      exact inv.setConsumer i
        (startProcessing_owes fun m hm => inv.stream.entries.subset (Group.claimed_mem hm))
  | consumer i now => exact inv.consumerStep (inv.consumers i) h
  | consumerStops i =>
      obtain rfl := Option.some.inj h
      exact inv.setConsumer i trivial
  | readBuffer i rows =>
      obtain ⟨⟨-, read⟩, eq⟩ := Option.ite_none_right_eq_some.mp h
      obtain rfl := Option.some.inj eq
      refine inv.setResolver i fun row hrow =>
        ⟨inv.tables.buffer row (read row hrow), s.buffer.fresh row (read row hrow), fun b hb same => .inr ?_⟩
      rw [s.buffer.eq_of_id hb (read row hrow) same]
      exact List.mem_singleton_self _
  | resolver i => exact inv.resolverStep (inv.resolvers i) h
  | resolverStops i =>
      obtain rfl := Option.some.inj h
      exact inv.setResolver i trivial

/-- Before the first entry, over any table of runs. -/
def start (runs : JobRunsTable J) : LogSystem J := { runs }

theorem start_inv (runs : JobRunsTable J) : (start runs).Inv parse where
  stream := ⟨.nil, List.Sublist.refl _, .inl rfl, by simp [start]⟩
  tables := ⟨by simp [start, JobLogsTable.empty], by simp [start, JobLogBufferTable.empty]⟩
  kept := by simp [start, NothingLost]
  consumers := fun _ => trivial
  resolvers := fun _ => trivial

/-- In every reachable state no valid event is lost, no line is stored twice,
    and a stored line is that of an appended event, under that event's run. -/
theorem logs_exactly_once [DecidableEq J] (runs : JobRunsTable J) {s : LogSystem J}
    (reach : Machine.Reachable (step parse localeCompare) (start runs) s) :
    s.NothingLost parse ∧
      (s.logs.rows.Pairwise fun a b => ¬ ∃ l, s.IsLine a l ∧ s.IsLine b l) ∧
        ∀ row ∈ s.logs.rows, ∃ m ∈ s.history, ∃ e, validEvent parse m = some e ∧
          s.IsLine row e.identity ∧ row.level = e.level ∧ row.message = e.message := by
  have inv : s.Inv parse := reach.invariant (fun _ _ _ inv h => inv.step h) (start_inv runs)
  refine ⟨inv.kept, s.line_once, fun row hrow => ?_⟩
  obtain ⟨r, ⟨m, member, valid⟩, own, rfl⟩ := inv.tables.logs row hrow
  obtain ⟨e, found, line⟩ := Option.map_eq_some_iff.mp valid
  have same := LogEventForPersistence.identity_of_line line
  simp only [LogEventForPersistence.line, LogEventForPersistence.mk.injEq] at line
  refine ⟨m, member, e, found, ?_, line.2.2.2.1.symm, line.2.2.2.2.2.2.1.symm⟩
  rw [same]
  exact ⟨own, rfl, rfl⟩

end

/-- A payload as a worker writes it, and what it parses to. -/
def helloPayload : String :=
  "\x7b\"version\":1,\"workerId\":\"w\",\"queueName\":\"mail\",\"jobId\":\"1\",\"jobTimestamp\":1000," ++
    "\"logTimestamp\":1500,\"logSeq\":0,\"level\":\"info\",\"message\":\"hello\"\x7d"

def parseHello (payload : String) : Option LogSyncEvent :=
  if payload = helloPayload then
    some { workerId := "w", queueName := "mail", jobId := "1", jobTimestamp := 1000, logTimestamp := 1500,
           logSeq := 0, level := .info, message := "hello" }
  else none

/-- The line arrives before its run and is buffered; the consumer crashes before
    acknowledging it, another claims it after the run was created and inserts
    it, and then the resolver inserts the buffered row and deletes it. -/
def lateRun : List (LogAction Unit) :=
  [.append ⟨1, ["payload", helloPayload]⟩, .readNew 0 10, .consumer 0 0, .consumer 0 0, .consumer 0 0,
    .consumerStops 0, .createRuns {} [mailRun .active none], .claim 1 [1], .consumer 1 0, .consumer 1 0,
    .readBuffer 0 [⟨0, "mail", "1", 1000, 1500, 0, .info, "hello", 0⟩], .resolver 0, .resolver 0, .resolver 0,
    .resolver 0, .consumer 1 0, .consumer 1 0, .consumer 1 0, .consumer 1 0]

set_option maxRecDepth 10000 in
theorem logs_exactly_once_late_run :
    ∃ s : LogSystem Unit, s.logs.rows = [⟨0, .info, "hello", 1500, 0⟩] ∧ s.buffer.rows = [] ∧
      s.group.entries = [] ∧ s.NothingLost parseHello ∧
      (s.logs.rows.Pairwise fun a b => ¬ ∃ l, s.IsLine a l ∧ s.IsLine b l) ∧
      ∀ row ∈ s.logs.rows, ∃ m ∈ s.history, ∃ e, validEvent parseHello m = some e ∧
        s.IsLine row e.identity ∧ row.level = e.level ∧ row.message = e.message := by
  have performed : Machine.perform (step parseHello compare) (start .empty) lateRun = some _ := rfl
  exact ⟨_, rfl, rfl, rfl, logs_exactly_once .empty ⟨_, Machine.perform_run performed⟩⟩

end LogSystem

end BetterBullBoard
