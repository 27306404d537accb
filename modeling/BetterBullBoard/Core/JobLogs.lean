import BetterBullBoard.Core.Schemas
import BetterBullBoard.Lib.SortedRows
import BetterBullBoard.Lib.Slices
import BetterBullBoard.Logs.Schema
import BetterBullBoard.Job.Format

/-! # Listing the logs of a run

`listJobLogs` of the core package, by offset. The logs and their number are two
statements, so the table may change between them.
-/

namespace BetterBullBoard

structure ListJobLogsInput where
  id : Nat
  level : Option LogLevel := none
  messageContains : Option String := none
  limit : Option Int := none
  offset : Option Int := none

structure ListJobLogsOutput where
  logs : List JobLog
  total : Nat
  deriving DecidableEq

/-- `listJobLogsInputSchema` -/
def listJobLogsIssues (input : ListJobLogsInput) : List ZodIssue :=
  (match input.limit with
    | none => []
    | some limit =>
        (if limit < 1 then [.tooSmall ["limit"] 1] else []) ++
          (if 1000 < limit then [.tooBig ["limit"] 1000] else [])) ++
  match input.offset with
    | none => []
    | some offset => if offset < 0 then [.tooSmall ["offset"] 0] else []

variable {κ : Type} (db : Database κ)

def logsWhere (input : ListJobLogsInput) (r : JobLog) : Bool :=
  r.jobRunId = input.id && input.level.all (r.level = ·) &&
    (truthyString input.messageContains).all fun text => db.ilike r.message ("%" ++ text ++ "%")

def matchingLogs (input : ListJobLogsInput) (t : JobLogsTable) : List JobLog := t.rows.filter (logsWhere db input)

/-- `ORDER BY ts, log_seq` -/
def logOrder (a b : JobLog) : Bool := a.ts < b.ts || a.ts = b.ts && a.logSeq ≤ b.logSeq

def sortedLogs (input : ListJobLogsInput) (t : JobLogsTable) : List JobLog :=
  (matchingLogs db input t).insertionSort fun a b => logOrder a b = true

/-- Over the table as each of the two statements finds it. -/
def listJobLogs (input : ListJobLogsInput) (logsTable countTable : JobLogsTable) :
    Except CoreError ListJobLogsOutput := do
  let input ← parse listJobLogsIssues input
  let limit := (input.limit.getD 100).toNat
  let offset := (input.offset.getD 0).toNat
  return { logs := ((sortedLogs db input logsTable).drop offset).take limit
           total := (matchingLogs db input countTable).length }

section

variable {db} {input : ListJobLogsInput} {t : JobLogsTable}

/-- The order tells the logs of a run apart. -/
theorem logs_nodup : ((matchingLogs db input t).map fun r => toLex (r.ts, r.logSeq)).Nodup := by
  rw [List.nodup_iff_pairwise_ne, List.pairwise_map]
  refine List.Pairwise.imp_of_mem (fun {a b} ha hb apart same => apart ?_) (t.unique.sublist List.filter_sublist)
  obtain ⟨ts, logSeq⟩ := Prod.mk.inj (toLex_inj.mp same)
  have runOf : ∀ r ∈ matchingLogs db input t, r.jobRunId = input.id := by
    intro r hr
    have found := (List.mem_filter.mp hr).2
    simp only [logsWhere, Bool.and_eq_true, decide_eq_true_eq] at found
    exact found.1.1
  exact ⟨rfl, by simp [JobLog.target, ts, logSeq, runOf a ha, runOf b hb]⟩

theorem sortedLogs_strict :
    (sortedLogs db input t).Pairwise fun a b => toLex (a.ts, a.logSeq) < toLex (b.ts, b.logSeq) := by
  refine SortedRows.pairwise_sort (fun a b => ?_) logs_nodup
  rw [logOrder, Prod.Lex.le_iff]
  simp

theorem sortedLogs_perm : (sortedLogs db input t).Perm (matchingLogs db input t) := List.perm_insertionSort _ _

end

/-- A page of some rows. -/
def logsPage (rows : List JobLog) (limit k : Nat) : ListJobLogsOutput where
  logs := (rows.drop (limit * k)).take limit
  total := rows.length

/-- A page by its offset, when both statements find the same logs. -/
theorem listJobLogs_page (input : ListJobLogsInput) {limit : Nat} (accepted : 1 ≤ limit ∧ limit ≤ 1000) (k : Nat)
    {rows : List JobLog} {logsTable countTable : JobLogsTable} (found : sortedLogs db input logsTable = rows)
    (counted : sortedLogs db input countTable = rows) :
    listJobLogs db { input with limit := some limit, offset := some (limit * k : Nat) } logsTable countTable =
      .ok (logsPage rows limit k) := by
  have issues : listJobLogsIssues { input with limit := some (limit : Int), offset := some ((limit * k : Nat) : Int) } =
      [] := by
    simp only [listJobLogsIssues, List.append_eq_nil_iff, ite_eq_right_iff]
    refine ⟨⟨?_, ?_⟩, ?_⟩ <;> intro wrong <;> omega
  rw [listJobLogs, parse_ok issues]
  refine congrArg Except.ok ?_
  have total : (matchingLogs db input countTable).length = rows.length := by rw [← counted, sortedLogs_perm.length_eq]
  subst found
  rw [logsPage, ← total]
  rfl

theorem pages_flatten (rows : List JobLog) (limit n : Nat) :
    ((List.range n).map (logsPage rows limit)).flatMap (·.logs) = rows.take (limit * n) := by
  rw [← Slices.flatten_first limit n rows, List.flatMap_def, List.map_map]
  rfl

end BetterBullBoard
