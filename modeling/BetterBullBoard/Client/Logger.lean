import BetterBullBoard.Lib.Stretches
import BetterBullBoard.Logs.OwnRows
import BetterBullBoard.Logs.Redelivery

/-! # The console relay

A worker process stamps the console lines of its jobs with the clock and a
counter, and the stamp is what `job_logs` tells the lines of a run apart by. Only
a call that emits a line reads the clock; `now` is what the clock answers it.
-/

namespace BetterBullBoard

/-- `lastTs` and `counter` of the module. -/
structure LogClock where
  lastTs : Int := 0
  counter : Nat := 0
  deriving Repr, DecidableEq

/-- `ts` and `seq`, and the module's variables afterwards. -/
def nextLogTimestamp (clock : LogClock) (now : Int) : (Int × Nat) × LogClock :=
  let clock : LogClock :=
    if now = clock.lastTs then { clock with counter := clock.counter + 1 } else { lastTs := now, counter := 0 }
  ((now, clock.counter), clock)

structure SandboxedJob where
  id : Option String
  queueName : String
  timestamp : Int
  deriving Repr, DecidableEq

/-- What `withJobConsole` binds; `emitBBBLog` adds the `workerId`. -/
structure ConsoleCtx where
  job : SandboxedJob
  workerId : String
  autoEmitBBBLogs : Bool
  deriving Repr, DecidableEq

structure ConsoleCall where
  ctx : Option ConsoleCtx
  level : LogLevel
  message : String
  now : Int
  deriving Repr, DecidableEq

/-- The event emitted to the log stream, if any. -/
def forward (clock : LogClock) (call : ConsoleCall) : Option LogSyncEvent × LogClock :=
  match call.ctx with
  | none => (none, clock)
  | some ctx =>
      match truthyString ctx.job.id with
      | none => (none, clock)
      | some jobId =>
          if ctx.autoEmitBBBLogs then
            let ((ts, seq), clock) := nextLogTimestamp clock call.now
            (some { workerId := ctx.workerId, jobId, queueName := ctx.job.queueName, logTimestamp := ts, logSeq := seq,
                    jobTimestamp := ctx.job.timestamp, message := call.message, level := call.level }, clock)
          else (none, clock)

def relay (clock : LogClock) : List ConsoleCall → List LogSyncEvent
  | [] => []
  | call :: calls => (forward clock call).1.toList ++ relay (forward clock call).2 calls

def emitted (calls : List ConsoleCall) : List LogSyncEvent := relay {} calls

def ConsoleCall.run (call : ConsoleCall) : Option (String × String × Int) :=
  match call.ctx with
  | none => none
  | some ctx =>
      if ctx.autoEmitBBBLogs then
        (truthyString ctx.job.id).map fun jobId => (ctx.job.queueName, jobId, ctx.job.timestamp)
      else none

namespace LogSyncEvent

def line (e : LogSyncEvent) : LogEventForPersistence :=
  { id := none, queue := e.queueName, jobId := e.jobId, jobTimestamp := e.jobTimestamp,
    logTimestamp := e.logTimestamp, logSeq := e.logSeq, level := e.level, message := e.message }

def run (e : LogSyncEvent) : String × String × Int := (e.queueName, e.jobId, e.jobTimestamp)

def stamp (e : LogSyncEvent) : (Int × String × String × Int) × Int := ((e.logTimestamp, e.run), e.logSeq)

end LogSyncEvent

theorem validEvent_line {parse : String → Option LogSyncEvent} {m : StreamMessage} {payload : String}
    (given : truthyString (getField m.fields "payload") = some payload) :
    (validEvent parse m).map (·.line) = (parse payload).map LogSyncEvent.line := by
  rw [validEvent, given, Option.map_map]
  rfl

def linesOf (run : String × String × Int) (calls : List ConsoleCall) : List LogSyncEvent :=
  (emitted calls).filter fun e => e.run = run

/-- The stamps of a run's lines differ, and wherever these lines, and any lines of
    other runs, have been ingested, each has a row of its own. -/
def LinesKept (calls : List ConsoleCall) : Prop :=
  ∀ run, ((linesOf run calls).map fun e => (e.logTimestamp, e.logSeq)).Nodup ∧
    ∀ (J : Type) [DecidableEq J] (parse : String → Option LogSyncEvent) (localeCompare : String → String → Ordering)
      (runs : JobRunsTable J) (s : LogSystem J),
      Machine.Reachable (LogSystem.step parse localeCompare) (LogSystem.start runs) s →
      (s.linesOfRun parse run).Perm ((linesOf run calls).map LogSyncEvent.line) → s.Ingested parse run →
      s.OwnRows ((linesOf run calls).map LogSyncEvent.line)

/-- What the clock answered, and the run it was asked for. The module starts as if
    it had answered 0 to no run. -/
def readings (calls : List ConsoleCall) : List (Int × Option (String × String × Int)) :=
  (0, none) :: calls.filterMap fun call => call.run.map fun run => (call.now, some run)

def reading (r : Int × Option (String × String × Int)) : Option (Int × String × String × Int) := r.2.map (r.1, ·)

/-- No two stretches of one answer have one run at the same place. -/
def StretchesApart (calls : List ConsoleCall) : Prop :=
  (Stretches.stretches Prod.fst (readings calls)).Pairwise (Stretches.Apart reading)

/-- What one call does: nothing, or it emits a line stamped by the clock. -/
theorem forward_cases (clock : LogClock) (call : ConsoleCall) :
    (call.run = none ∧ forward clock call = (none, clock)) ∨
      ∃ run e, call.run = some run ∧ forward clock call = (some e, (nextLogTimestamp clock call.now).2) ∧
        e.stamp = ((call.now, run), ((nextLogTimestamp clock call.now).2.counter : Int)) := by
  unfold forward ConsoleCall.run
  cases call.ctx with
  | none => exact .inl ⟨rfl, rfl⟩
  | some ctx =>
      dsimp only
      cases truthyString ctx.job.id with
      | none => simp
      | some jobId =>
          cases ctx.autoEmitBBBLogs with
          | false => exact .inl ⟨rfl, rfl⟩
          | true => exact .inr ⟨_, _, rfl, rfl, rfl⟩

theorem relay_stamps (clock : LogClock) (calls : List ConsoleCall) :
    (relay clock calls).map (·.stamp) =
      (Stretches.tagged reading (Stretches.numberFrom Prod.fst clock.lastTs clock.counter
        (calls.filterMap fun call => call.run.map fun run => (call.now, some run)))).map
          fun p => (p.1, (p.2 : Int)) := by
  induction calls generalizing clock with
  | nil => rfl
  | cons call calls ih =>
      cases forward_cases clock call with
      | inl silent =>
          obtain ⟨dropped, same⟩ := silent
          rw [relay, same, List.filterMap_cons_none (by rw [dropped]; rfl)]
          exact ih clock
      | inr emits =>
          obtain ⟨run, e, forwarded, next, stamp⟩ := emits
          rw [relay, next, List.filterMap_cons_some (by rw [forwarded]; rfl), List.map_append, ih]
          simp only [Option.toList_some, List.map_cons, List.map_nil, stamp, nextLogTimestamp, Stretches.numberFrom]
          split
          · rfl
          · rfl

/-- The stamps of a process differ exactly when its stretches are apart. -/
theorem nodup_stamps (calls : List ConsoleCall) :
    ((emitted calls).map (·.stamp)).Nodup ↔ StretchesApart calls := by
  have injective : Function.Injective fun p : (Int × String × String × Int) × Nat => (p.1, (p.2 : Int)) := by
    intro p q same
    obtain ⟨first, second⟩ := Prod.mk.inj same
    exact Prod.ext first (Int.ofNat_inj.mp second)
  rw [StretchesApart, ← Stretches.nodup_places, readings, Stretches.stretches_numbered, emitted, relay_stamps,
    List.nodup_map_iff injective]
  rfl

theorem nodup_lines (events : List LogSyncEvent) :
    (∀ run, ((events.filter fun e => e.run = run).map fun e => (e.logTimestamp, e.logSeq)).Nodup) ↔
      (events.map (·.stamp)).Nodup := by
  simp only [List.Nodup, List.pairwise_map, List.pairwise_filter, decide_eq_true_eq]
  simp only [List.pairwise_iff_getElem]
  constructor
  · intro apart i j hi hj before same
    simp only [LogSyncEvent.stamp, Prod.mk.injEq] at same
    exact apart events[j].run i j hi hj before same.1.2 rfl (Prod.ext same.1.1 same.2)
  · intro apart run i j hi hj before first second same
    obtain ⟨ts, seq⟩ := Prod.mk.inj same
    exact apart i j hi hj before (by simp only [LogSyncEvent.stamp, ts, seq, first, second])

/-- Lines of a run that the stamps tell apart have identities of their own. -/
theorem nodup_identities {events : List LogSyncEvent}
    (distinct : (events.map fun e => (e.logTimestamp, e.logSeq)).Nodup) :
    ((events.map LogSyncEvent.line).map (·.identity)).Nodup := by
  rw [List.map_map]
  refine List.pairwise_map.mpr ((List.pairwise_map.mp distinct).imp fun apart same => apart ?_)
  exact Prod.ext (congrArg LogIdentity.logTimestamp same) (congrArg LogIdentity.logSeq same)

/-- No line of a job is lost to another exactly when no two stretches of one
    reading stamp a line of one run at the same place. -/
theorem linesKept_iff (calls : List ConsoleCall) : LinesKept calls ↔ StretchesApart calls := by
  rw [← nodup_stamps, ← nodup_lines]
  constructor
  · intro kept run
    exact (kept run).1
  · intro distinct run
    refine ⟨distinct run, fun J _ parse localeCompare runs s reach same done => ?_⟩
    have identities : ((s.linesOfRun parse run).map (·.identity)).Nodup :=
      (same.map _).nodup_iff.mpr (nodup_identities (distinct run))
    exact (LogSystem.ownRows runs reach done identities).perm same

def mailConsole : Option ConsoleCtx := some ⟨⟨some "1", "mail", 1000⟩, "1", true⟩

/-- A job logs three lines; before the third the clock is set back. -/
def setBack : List ConsoleCall :=
  [⟨mailConsole, .log, "connecting", 1500⟩, ⟨mailConsole, .log, "connected", 1501⟩,
    ⟨mailConsole, .error, "failed", 1500⟩]

/-- The third line gets the stamp of the first, and is not stored. -/
theorem setBack_not_kept : ¬ LinesKept setBack ∧
    (persistLogEvents (fun _ => false) compare
      (upsertJobRuns {} [mailRun .active none] (.empty : JobRunsTable Unit)).1 0 ((emitted setBack).map (·.line))
        (.empty, .empty)).1.1.rows.map (·.message) = ["connecting", "connected"] := by
  refine ⟨fun kept => ?_, by decide +kernel⟩
  have distinct := (kept ("mail", "1", 1000)).1
  exact absurd distinct (by decide)

end BetterBullBoard
