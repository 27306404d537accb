import Mathlib.Tactic.Choose
import BetterBullBoard.Logs.ExactlyOnce

/-! # A row for every line

When nothing of a run is left in the stream or in the buffer, lines of pairwise
different identities have pairwise different rows, each with the level and the
message of its line.
-/

namespace BetterBullBoard

variable {J : Type}

namespace LogSystem

/-- The row is this line, as it was written. -/
def Carries (s : LogSystem J) (row : JobLog) (e : LogEventForPersistence) : Prop :=
  s.IsLine row e.identity ∧ row.level = e.level ∧ row.message = e.message

/-- Each of the lines has a row of its own in `job_logs`. -/
def OwnRows (s : LogSystem J) (lines : List LogEventForPersistence) : Prop :=
  ∃ own : LogEventForPersistence → JobLog,
    (lines.map own).Nodup ∧ ∀ e ∈ lines, own e ∈ s.logs.rows ∧ s.Carries (own e) e

theorem OwnRows.perm {s : LogSystem J} {lines lines' : List LogEventForPersistence} (h : s.OwnRows lines)
    (same : lines.Perm lines') : s.OwnRows lines' := by
  obtain ⟨own, distinct, held⟩ := h
  exact ⟨own, (same.map own).nodup_iff.mp distinct, fun e he => held e (same.mem_iff.mpr he)⟩

section

variable (parse : String → Option LogSyncEvent)

/-- The lines of a run that were ever appended, in the order of their entries. -/
def linesOfRun (s : LogSystem J) (run : String × String × Int) : List LogEventForPersistence :=
  ((s.history.filterMap (validEvent parse)).filter fun e => e.identity.run = run).map (·.line)

/-- Nothing of the run waits in the stream or in the buffer. -/
def Ingested (s : LogSystem J) (run : String × String × Int) : Prop :=
  (∀ m ∈ s.history, ∀ e, validEvent parse m = some e → e.identity.run = run → ¬ s.group.Unacknowledged m) ∧
    ∀ row ∈ s.buffer.rows, row.identity.run ≠ run

end

variable {parse : String → Option LogSyncEvent} {localeCompare : String → String → Ordering} {s : LogSystem J}
  {run : String × String × Int}

theorem mem_linesOfRun {e : LogEventForPersistence} :
    e ∈ s.linesOfRun parse run ↔
      ∃ m ∈ s.history, ∃ e', validEvent parse m = some e' ∧ e'.identity.run = run ∧ e'.line = e := by
  simp only [linesOfRun, List.mem_map, List.mem_filter, List.mem_filterMap, decide_eq_true_eq]
  constructor
  · rintro ⟨e', ⟨⟨m, member, valid⟩, own⟩, line⟩
    exact ⟨m, member, e', valid, own, line⟩
  · rintro ⟨m, member, e', valid, own, line⟩
    exact ⟨e', ⟨⟨m, member, valid⟩, own⟩, line⟩

theorem IsLine.unique {row : JobLog} {l l' : LogIdentity} (h : s.IsLine row l) (h' : s.IsLine row l') : l = l' := by
  obtain ⟨⟨found, member, id, target⟩, ts, seq⟩ := h
  obtain ⟨⟨found', member', id', target'⟩, ts', seq'⟩ := h'
  obtain rfl := s.runs.eq_of_id member member' (id.trans id'.symm)
  have same : l.run = l'.run := Option.some.inj (target.symm.trans target')
  simp only [LogIdentity.run, Prod.mk.injEq] at same
  cases l
  cases l'
  simp_all

/-- A stored line was appended: the row carries an event of the stream. -/
theorem Inv.carried (inv : s.Inv parse) {row : JobLog} (hrow : row ∈ s.logs.rows) {l : LogIdentity}
    (line : s.IsLine row l) : ∃ e ∈ s.linesOfRun parse l.run, s.Carries row e := by
  obtain ⟨r, ⟨m, member, valid⟩, own, rfl⟩ := inv.tables.logs row hrow
  obtain ⟨e, found, same⟩ := Option.map_eq_some_iff.mp valid
  have identity := LogEventForPersistence.identity_of_line same
  have resolved : s.IsLine r.row r.identity := ⟨own, rfl, rfl⟩
  obtain rfl := line.unique resolved
  refine ⟨e.line, mem_linesOfRun.mpr ⟨m, member, e, found, congrArg LogIdentity.run identity, rfl⟩, ?_⟩
  rw [same]
  exact ⟨resolved, rfl, rfl⟩

theorem Inv.ingested (inv : s.Inv parse) (done : s.Ingested parse run) {e : LogEventForPersistence}
    (he : e ∈ s.linesOfRun parse run) : s.InLogs e.identity := by
  obtain ⟨m, member, e', valid, own, rfl⟩ := mem_linesOfRun.mp he
  change s.InLogs e'.identity
  cases inv.kept m member e' valid with
  | inl waiting => exact absurd waiting (done.1 m member e' valid own)
  | inr stored =>
      cases stored with
      | inl held => exact held
      | inr buffered =>
          obtain ⟨row, hrow, same⟩ := buffered
          exact absurd (same ▸ own) (done.2 row hrow)

theorem linesOfRun_run {e : LogEventForPersistence} (he : e ∈ s.linesOfRun parse run) : e.identity.run = run := by
  obtain ⟨_, -, e', -, own, rfl⟩ := mem_linesOfRun.mp he
  exact own

theorem ownRows [DecidableEq J] (runs : JobRunsTable J)
    (reach : Machine.Reachable (step parse localeCompare) (start runs) s) (done : s.Ingested parse run)
    (distinct : ((s.linesOfRun parse run).map (·.identity)).Nodup) :
    s.OwnRows (s.linesOfRun parse run) := by
  have inv : s.Inv parse := reach.invariant (fun _ _ _ inv h => inv.step h) (start_inv runs)
  have row : ∀ e ∈ s.linesOfRun parse run, ∃ row ∈ s.logs.rows, s.Carries row e := by
    intro e he
    obtain ⟨row, hrow, line⟩ := inv.ingested done he
    obtain ⟨e', he', carries⟩ := inv.carried hrow line
    rw [linesOfRun_run he] at he'
    obtain rfl := List.inj_on_of_nodup_map distinct he he' (line.unique carries.1)
    exact ⟨row, hrow, carries⟩
  have : Nonempty JobLog := ⟨⟨0, .log, "", 0, 0⟩⟩
  choose! own stored carries using row
  refine ⟨own, ?_, fun e he => ⟨stored e he, carries e he⟩⟩
  refine List.pairwise_map.mpr (List.Pairwise.imp_of_mem ?_ (List.pairwise_map.mp distinct))
  intro e e' he he' other same
  exact other ((carries e he).1.unique (same ▸ (carries e' he').1))

end LogSystem

end BetterBullBoard
