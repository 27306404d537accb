import BetterBullBoard.Core.Schemas
import BetterBullBoard.Job.Writers

/-! # `cancelJob`

A job id can have several runs, one for each time it was enqueued. The
transaction looks at one of them, any one, and then leaves all of them alone or
fails all of them.
-/

namespace BetterBullBoard

variable {J : Type}

structure JobMutationInput where
  jobId : String
  queueName : String
  deriving Repr, DecidableEq

structure MutationResult where
  success : Bool
  message : String
  deriving Repr, DecidableEq

/-- `z.string().min(1)`, twice. -/
def jobMutationInputIssues (input : JobMutationInput) : List ZodIssue :=
  (if input.jobId = "" then [.tooSmall ["jobId"] 1] else []) ++
    (if input.queueName = "" then [.tooSmall ["queueName"] 1] else [])

/-- The name with and without braces. -/
def getQueueNameCandidates (queueName : String) : List String :=
  if queueName.toList.head? = some '\x7b' ∧ queueName.toList.getLast? = some '\x7d' then
    [queueName, String.ofList (queueName.toList.drop 1).dropLast]
  else [queueName, "\x7b" ++ queueName ++ "\x7d"]

/-- `names` are the tracked queues, as the query reads through them. -/
def resolveTrackedQueueName (names : List String) (queueName : String) : Except CoreError String :=
  let rows := names.filter (· ∈ getQueueNameCandidates queueName)
  match truthyString ((rows.find? (· = queueName)).or rows.head?) with
  | some resolvedName => .ok resolvedName
  | none => .error (.error ("Queue " ++ queueName ++ " not found"))

/-- The condition of both queries. -/
def isRunOf (jobId queue : String) (r : JobRun J) : Bool := r.jobId = jobId && r.queue = queue

/-- The transaction; `returned` is what its `SELECT .. LIMIT 1` returns. -/
def cancelTransaction (returned : List (JobRun J)) (jobId queue : String) (t : JobRunsTable J) :
    Except CoreError (JobRunsTable J) :=
  match returned with
  | [] => .error (.error ("Job " ++ jobId ++ " not found in queue " ++ queue))
  | job :: _ =>
      if isTerminalStatus job.status then .ok t
      else
        match t.rows.filter (isRunOf jobId queue) with
        | [] => .error (.error ("Updated job " ++ jobId ++ " not found in queue " ++ queue))
        | _ :: _ => .ok (t.markCancelled jobId queue)

/-- `cancelBullMqJob` is the dependency of that name. -/
def cancelJob (names : List String) (cancelBullMqJob : String → String → Except CoreError Unit)
    (returned : List (JobRun J)) (input : JobMutationInput) (t : JobRunsTable J) :
    Except CoreError (MutationResult × JobRunsTable J) := do
  let ⟨jobId, queueName⟩ ← parse jobMutationInputIssues input
  let resolvedQueueName ← resolveTrackedQueueName names queueName
  cancelBullMqJob jobId resolvedQueueName
  let t ← cancelTransaction returned jobId resolvedQueueName t
  return (⟨true, "Job " ++ jobId ++ " has been cancelled successfully"⟩, t)

/-- No run of the job is open any more, and only its open runs changed. -/
structure Cancelled (jobId queue : String) (t t' : JobRunsTable J) : Prop where
  closed : ∀ r ∈ t'.rows, isRunOf jobId queue r → isTerminalStatus r.status
  finished : ∀ r ∈ t.rows, isRunOf jobId queue r → isTerminalStatus r.status → r ∈ t'.rows
  others : ∀ r, isRunOf jobId queue r = false → (r ∈ t.rows ↔ r ∈ t'.rows)

/-- A run that looks as if it had been cancelled before. -/
def wasCancelled (r : JobRun J) : Prop := r.status = .failed ∧ r.errorMessage = some "Job cancelled"

instance (r : JobRun J) : Decidable (wasCancelled r) := inferInstanceAs (Decidable (_ ∧ _))

theorem cancelTransaction_ok {returned : List (JobRun J)} {jobId queue : String} {t t' : JobRunsTable J}
    (ok : cancelTransaction returned jobId queue t = .ok t') : ∃ job rest, returned = job :: rest ∧
      ((isTerminalStatus job.status = true ∧ t' = t) ∨
        (isTerminalStatus job.status = false ∧ t' = t.markCancelled jobId queue)) := by
  unfold cancelTransaction at ok
  split at ok
  · cases ok
  · rename_i job rest
    refine ⟨job, rest, rfl, ?_⟩
    split at ok
    · rename_i terminal
      cases ok
      exact .inl ⟨terminal, rfl⟩
    · rename_i unended
      split at ok
      · cases ok
      · cases ok
        exact .inr ⟨Bool.eq_false_iff.mpr unended, rfl⟩

/-- The transaction is the two statements of a caller among the writers of the
    table. -/
theorem cancelTransaction_run [DecidableEq J] {w : Writers J} {i : Nat} (idle : w.cancellers i = .idle)
    {returned : List (JobRun J)} {jobId queue : String} {t' : JobRunsTable J}
    (returns : Limit.Returns 1 (w.table.rows.filter (isRunOf jobId queue)) returned)
    (ok : cancelTransaction returned jobId queue w.table = .ok t') :
    ∃ ts w', Machine.Run Writers.step w ts w' ∧ w'.table = t' := by
  obtain ⟨job, rest, rfl, picked⟩ := cancelTransaction_ok ok
  have select : w.step (.cancelSelect i jobId queue (job :: rest)) =
      if isTerminalStatus job.status then some w else some (w.setCanceller i (.updating jobId queue)) :=
    if_pos ⟨idle, returns⟩
  cases picked with
  | inl ended =>
      obtain ⟨terminal, rfl⟩ := ended
      rw [if_pos terminal] at select
      exact ⟨_, _, .next select (.done _), rfl⟩
  | inr unended =>
      obtain ⟨nonTerminal, rfl⟩ := unended
      rw [if_neg (by simp [nonTerminal])] at select
      let w₁ := w.setCanceller i (.updating jobId queue)
      have updating : w₁.cancellers i = .updating jobId queue := Function.update_self ..
      have update : w₁.step (.cancelUpdate i) =
          some ({ w₁ with table := w₁.table.markCancelled jobId queue }.setCanceller i .idle) := by
        simp only [Writers.step, updating]
      exact ⟨_, _, .next select (.next update (.done _)), rfl⟩

theorem cancelJob_ok {names : List String} {cancelBullMqJob : String → String → Except CoreError Unit}
    {returned : List (JobRun J)} {input : JobMutationInput} {t t' : JobRunsTable J} {result : MutationResult}
    (ok : cancelJob names cancelBullMqJob returned input t = .ok (result, t')) :
    ∃ queue, resolveTrackedQueueName names input.queueName = .ok queue ∧
      cancelTransaction returned input.jobId queue t = .ok t' := by
  simp only [cancelJob, bind, Except.bind] at ok
  split at ok
  · cases ok
  · rename_i input' parsed
    have same : input' = input := by
      unfold parse at parsed
      split at parsed <;> cases parsed
      rfl
    subst same
    split at ok
    · cases ok
    · rename_i queue resolved
      refine ⟨queue, resolved, ?_⟩
      split at ok
      · cases ok
      · split at ok
        · cases ok
        · rename_i t'' committed
          cases ok
          exact committed

theorem cancelled_refl_iff {jobId queue : String} {t : JobRunsTable J} :
    Cancelled jobId queue t t ↔ ∀ r ∈ t.rows, isRunOf jobId queue r → isTerminalStatus r.status :=
  ⟨fun c => c.closed, fun all => ⟨all, fun _ hr _ _ => hr, fun _ _ => Iff.rfl⟩⟩

theorem mem_markCancelled {jobId queue : String} {t : JobRunsTable J} {r : JobRun J} :
    r ∈ (t.markCancelled jobId queue).rows ↔ (isRunOf jobId queue r = false ∧ r ∈ t.rows) ∨
      ∃ old ∈ t.rows, isRunOf jobId queue old ∧
        r = { old with status := .failed, errorMessage := some "Job cancelled" } := by
  change r ∈ t.rows.map (fun r => if isRunOf jobId queue r then _ else r) ↔ _
  rw [List.mem_map]
  constructor
  · rintro ⟨old, member, rfl⟩
    cases run : isRunOf jobId queue old with
    | true => exact .inr ⟨old, member, run, rfl⟩
    | false => exact .inl ⟨run, member⟩
  · rintro (⟨other, member⟩ | ⟨old, member, run, rfl⟩)
    · exact ⟨r, member, by simp [other]⟩
    · exact ⟨old, member, by simp [run]⟩

/-- Failing every run is right when no run had ended before, but as cancelled. -/
theorem cancelled_markCancelled_iff {jobId queue : String} {t : JobRunsTable J} :
    Cancelled jobId queue t (t.markCancelled jobId queue) ↔
      ∀ r ∈ t.rows, isRunOf jobId queue r → isTerminalStatus r.status → wasCancelled r := by
  constructor
  · intro c r hr run terminal
    rcases mem_markCancelled.mp (c.finished r hr run terminal) with ⟨other, -⟩ | ⟨old, -, -, rfl⟩
    · simp [run] at other
    · exact ⟨rfl, rfl⟩
  · intro only
    refine ⟨fun r hr run => ?_, fun r hr run terminal => ?_, fun r other => ?_⟩
    · rcases mem_markCancelled.mp hr with ⟨other, -⟩ | ⟨old, -, -, rfl⟩
      · simp [run] at other
      · rfl
    · obtain ⟨failed, message⟩ := only r hr run terminal
      refine mem_markCancelled.mpr (.inr ⟨r, hr, run, ?_⟩)
      cases r
      simp_all
    · rw [mem_markCancelled]
      constructor
      · exact fun hr => .inl ⟨other, hr⟩
      · rintro (⟨-, hr⟩ | ⟨old, -, run, rfl⟩)
        · exact hr
        · exact absurd other (by simpa [isRunOf] using run)

/-- A successful call does what it should exactly when the run its query returned
    speaks for all: if that one had ended, all had; if not, none had, except as
    cancelled. -/
theorem cancelJob_iff {names : List String} {cancelBullMqJob : String → String → Except CoreError Unit}
    {returned : List (JobRun J)} {input : JobMutationInput} {t t' : JobRunsTable J} {result : MutationResult}
    {queue : String} (resolved : resolveTrackedQueueName names input.queueName = .ok queue)
    (ok : cancelJob names cancelBullMqJob returned input t = .ok (result, t')) :
    Cancelled input.jobId queue t t' ↔ ∀ job ∈ returned.head?, ∀ r ∈ t.rows, isRunOf input.jobId queue r →
      if isTerminalStatus job.status then isTerminalStatus r.status
      else isTerminalStatus r.status → wasCancelled r := by
  obtain ⟨queue', resolved', committed⟩ := cancelJob_ok ok
  obtain rfl : queue' = queue := Except.ok.inj (resolved'.symm.trans resolved)
  obtain ⟨job, rest, rfl, picked⟩ := cancelTransaction_ok committed
  simp only [List.head?_cons, Option.mem_some_iff, forall_eq']
  cases picked with
  | inl ended =>
      obtain ⟨terminal, rfl⟩ := ended
      simp only [terminal, if_true]
      exact cancelled_refl_iff
  | inr unended =>
      obtain ⟨nonTerminal, rfl⟩ := unended
      simp only [nonTerminal, Bool.false_eq_true, if_false]
      exact cancelled_markCancelled_iff

/-! ## A job with two runs -/

/-- Job 1 of queue `mail` has completed, and was enqueued again. -/
def twoRuns : JobRunsTable Unit :=
  (upsertJobRuns {} [mailRun .completed (some 2000),
    { mailRun .waiting none with enqueuedAt := .value 5000, createdAt := some 5000 }] .empty).1

def mailMutation : JobMutationInput := ⟨"1", "mail"⟩

/-- Job 1 of `mail` with two open runs, among runs that have ended: of another job of
    the queue, and of job 1 of another queue. -/
def openRuns : JobRunsTable Unit :=
  (upsertJobRuns {} [mailRun .active none, { mailRun .completed (some 2000) with jobId := "2" },
    { mailRun .completed (some 2000) with queue := "reports" },
    { mailRun .waiting none with enqueuedAt := .value 5000, createdAt := some 5000 }] .empty).1

/-- Whichever open run the query returns, both are cancelled, and the others are left
    alone. -/
theorem cancel_open_runs : openRuns.rows.countP (isRunOf "1" "mail") = 2 ∧
    ∀ job ∈ openRuns.rows, isRunOf "1" "mail" job → ∃ t' result,
      cancelJob ["reports", "mail"] (fun _ _ => .ok ()) [job] mailMutation openRuns = .ok (result, t') ∧
        Cancelled "1" "mail" openRuns t' ∧ t'.rows.map (·.status) = [.failed, .failed, .completed, .completed] := by
  refine ⟨by decide, fun job listed mine => ?_⟩
  have unended : ∀ r ∈ openRuns.rows, isRunOf "1" "mail" r → ¬ isTerminalStatus r.status := by decide
  have committed : cancelTransaction [job] "1" "mail" openRuns = .ok (openRuns.markCancelled "1" "mail") := by
    rw [cancelTransaction, if_neg (unended job listed mine)]
    rfl
  have ok : cancelJob ["reports", "mail"] (fun _ _ => .ok ()) [job] mailMutation openRuns =
      .ok (⟨true, "Job 1 has been cancelled successfully"⟩, openRuns.markCancelled "1" "mail") :=
    calc
      _ = (cancelTransaction [job] "1" "mail" openRuns).bind fun t => .ok (_, t) := rfl
      _ = _ := by rw [committed]; rfl
  refine ⟨_, _, ok, (cancelJob_iff rfl ok).mpr ?_, by decide⟩
  intro first head r hr run
  obtain rfl : job = first := Option.some.inj head
  rw [if_neg (unended job listed mine)]
  exact fun ended => absurd ended (unended r hr run)

/-- Of a job with two, the query may return the one that has ended. -/
theorem cancel_leaves_run_open :
    ¬ ∀ (names : List String) (cancelBullMqJob : String → String → Except CoreError Unit)
      (returned : List (JobRun Unit)) (input : JobMutationInput) (t t' : JobRunsTable Unit)
      (result : MutationResult) (queue : String),
      resolveTrackedQueueName names input.queueName = .ok queue →
      Limit.Returns 1 (t.rows.filter (isRunOf input.jobId queue)) returned →
      cancelJob names cancelBullMqJob returned input t = .ok (result, t') → Cancelled input.jobId queue t t' := by
  intro all
  have cancelled := all ["mail"] (fun _ _ => .ok ()) (twoRuns.rows.take 1) mailMutation twoRuns twoRuns _ "mail" rfl
    (by decide) rfl
  exact absurd cancelled.closed (by decide)

end BetterBullBoard
