import Mathlib.Data.Finset.Image
import BetterBullBoard.Core.Jobs
import BetterBullBoard.Core.Mutations

/-! # Bulk actions on the runs table

`runs-table.tsx` keeps the selection as a set of job ids, `bulk-actions.tsx`
sends the selected jobs. A job id does not tell the rows of a page apart: ids
come from queues, and a job has a run for each time it was enqueued.
-/

namespace BetterBullBoard

/-! ## The selection -/

/-- A click on the checkbox of the page, or of a row. -/
inductive SelectAction where
  | all (checked : Bool)
  | job (run : ListedJob) (checked : Bool)

def handleSelectAll (jobs : List ListedJob) (checked : Bool) : Finset String :=
  if checked then (jobs.map (·.jobId)).toFinset else ∅

def handleSelectJob (selectedJobIds : Finset String) (jobId : String) (checked : Bool) : Finset String :=
  if checked then insert jobId selectedJobIds else selectedJobIds.erase jobId

def SelectAction.apply (jobs : List ListedJob) (selectedJobIds : Finset String) : SelectAction → Finset String
  | .all checked => handleSelectAll jobs checked
  | .job run checked => handleSelectJob selectedJobIds run.jobId checked

def selectedJobIds (jobs : List ListedJob) (actions : List SelectAction) : Finset String :=
  actions.foldl (SelectAction.apply jobs) ∅

def selectedJobs (jobs : List ListedJob) (actions : List SelectAction) : List ListedJob :=
  jobs.filter fun job => job.jobId ∈ selectedJobIds jobs actions

/-! ## The requests -/

inductive BulkAction where
  | cancel
  | replay

/-- The filters of `cancellableJobs` and `replayableJobs`. -/
def BulkAction.applies : BulkAction → ListedJob → Bool
  | .cancel, job => job.status = .active || job.status = .waiting || job.status = .delayed
  | .replay, job => job.status = .completed || job.status = .failed

def ListedJob.toMutationInput (job : ListedJob) : JobMutationInput where
  jobId := job.jobId
  queueName := job.queue

/-- The body a bulk action sends. Its button is there when some selected job is one it applies to. -/
def bulkRequest (action : BulkAction) (selectedJobs : List ListedJob) : Option (List JobMutationInput) :=
  if (selectedJobs.filter action.applies).length > 0 then some (selectedJobs.map (·.toMutationInput)) else none

/-! ## What the user left checked -/

/-- How an action leaves rows of some kind: the page's checkbox is for all of them. -/
def SelectAction.leaves (concerned : ListedJob → Bool) (now : Bool) : SelectAction → Bool
  | .all checked => checked
  | .job run checked => if concerned run then checked else now

/-- Whether the last click on any such row left it checked. -/
def leftChecked (concerned : ListedJob → Bool) (actions : List SelectAction) : Bool :=
  actions.foldl (SelectAction.leaves concerned) false

/-- Row by row. -/
def rowChecked (actions : List SelectAction) (row : ListedJob) : Bool := leftChecked (·.id = row.id) actions

/-- Rows with one job id together. -/
def jobChecked (actions : List SelectAction) (row : ListedJob) : Bool := leftChecked (·.jobId = row.jobId) actions

/-- The pairs of the rows left checked that an action applies to. -/
def wantedJobs (action : BulkAction) (checked : ListedJob → Bool) (jobs : List ListedJob) : List JobMutationInput :=
  (jobs.filter fun job => checked job && action.applies job).map (·.toMutationInput)

variable {jobs : List ListedJob} {row : ListedJob}

theorem mem_apply (here : row ∈ jobs) (selectedJobIds : Finset String) (action : SelectAction) :
    decide (row.jobId ∈ action.apply jobs selectedJobIds) =
      action.leaves (·.jobId = row.jobId) (row.jobId ∈ selectedJobIds) := by
  cases action with
  | all checked =>
      cases checked with
      | true =>
          have listed : row.jobId ∈ (jobs.map (·.jobId)).toFinset :=
            List.mem_toFinset.mpr (List.mem_map_of_mem here)
          simpa [SelectAction.apply, handleSelectAll, SelectAction.leaves] using listed
      | false => simp [SelectAction.apply, handleSelectAll, SelectAction.leaves]
  | job run checked =>
      by_cases same : run.jobId = row.jobId
      · cases checked <;> simp [SelectAction.apply, handleSelectJob, SelectAction.leaves, same]
      · have other : row.jobId ≠ run.jobId := fun h => same h.symm
        cases checked <;> simp [SelectAction.apply, handleSelectJob, SelectAction.leaves, same, other]

theorem mem_foldl_apply (here : row ∈ jobs) (actions : List SelectAction) (selectedJobIds : Finset String) :
    decide (row.jobId ∈ actions.foldl (SelectAction.apply jobs) selectedJobIds) =
      actions.foldl (SelectAction.leaves (·.jobId = row.jobId)) (row.jobId ∈ selectedJobIds) := by
  induction actions generalizing selectedJobIds with
  | nil => rfl
  | cons action actions ih =>
      rw [List.foldl_cons, List.foldl_cons, ih, mem_apply here]

/-- The set holds the ids whose rows were last left checked, whichever of them was clicked. -/
theorem mem_selectedJobIds (here : row ∈ jobs) (actions : List SelectAction) :
    decide (row.jobId ∈ selectedJobIds jobs actions) = jobChecked actions row := by
  rw [selectedJobIds, mem_foldl_apply here]
  rfl

theorem selectedJobs_eq (jobs : List ListedJob) (actions : List SelectAction) :
    selectedJobs jobs actions = jobs.filter (jobChecked actions) :=
  List.filter_congr fun _ here => mem_selectedJobIds here actions

/-! ## Rows told apart by less than the row -/

/-- Two selections send the same when one of them goes by a key that is sent, and only if they select the same. -/
theorem sent_eq_iff {ρ τ κ : Type} [DecidableEq κ] (rows : List ρ) (send : ρ → τ) (key : τ → κ) {p q : ρ → Bool}
    (byKey : ∀ a b, key (send a) = key (send b) → p a = p b) :
    (rows.filter p).map send = (rows.filter q).map send ↔ ∀ r ∈ rows, p r = q r := by
  constructor
  · intro same r mem
    -- As many of the rows with `r`'s key are sent either way: all of them, or none.
    let alike := rows.filter fun a => key (send a) = key (send r)
    have sent : ∀ f : ρ → Bool, alike.countP f = ((rows.filter f).map send).countP fun x => key x = key (send r) := by
      intro f
      simp [alike, List.countP_filter, List.countP_map, Function.comp_def, Bool.and_comm]
    have counts : alike.countP p = alike.countP q := by rw [sent p, sent q, same]
    have inAlike : r ∈ alike := List.mem_filter.mpr ⟨mem, decide_eq_true rfl⟩
    have like : ∀ a ∈ alike, p a = p r := fun a ha => byKey a r (of_decide_eq_true (List.mem_filter.mp ha).2)
    cases selected : p r with
    | true =>
        have all : alike.countP p = alike.length := List.countP_eq_length.mpr fun a ha => by rw [like a ha, selected]
        exact (List.countP_eq_length.mp (counts.symm.trans all) r inAlike).symm
    | false =>
        have none : alike.countP p = 0 := List.countP_eq_zero.mpr fun a ha => by simp [like a ha, selected]
        have unsent := List.countP_eq_zero.mp (counts.symm.trans none) r inAlike
        exact (Bool.eq_false_iff.mpr unsent).symm
  · intro same
    rw [List.filter_congr same]

/-! ## The requests and the rows -/

/-- A selection by job id, sent as it is. -/
theorem request_eq_iff {action : BulkAction} {actions : List SelectAction} {sent : List JobMutationInput}
    (checked : ListedJob → Bool) (request : bulkRequest action (selectedJobs jobs actions) = some sent) :
    sent = wantedJobs action checked jobs ↔
      ∀ row ∈ jobs, jobChecked actions row = (checked row && action.applies row) := by
  have body : sent = (selectedJobs jobs actions).map (·.toMutationInput) := by
    rw [bulkRequest] at request
    split at request
    · exact (Option.some.inj request).symm
    · cases request
  rw [body, wantedJobs, selectedJobs_eq]
  refine sent_eq_iff jobs (·.toMutationInput) JobMutationInput.jobId ?_
  intro a b same
  rw [jobChecked, show a.jobId = b.jobId from same]
  rfl

/-- A request is for the rows left checked that it applies to exactly when its rows were left checked by the last click
    on any row with their job id, and no other row was. -/
theorem bulk_request_iff {action : BulkAction} {actions : List SelectAction} {sent : List JobMutationInput}
    (request : bulkRequest action (selectedJobs jobs actions) = some sent) :
    sent = wantedJobs action (rowChecked actions) jobs ↔
      ∀ row ∈ jobs, jobChecked actions row = (rowChecked actions row && action.applies row) :=
  request_eq_iff (rowChecked actions) request

/-- Job ids apart, what is wrong is the status: of the rows shown as checked, all must be ones the action applies to. -/
theorem request_shown_iff {action : BulkAction} {actions : List SelectAction} {sent : List JobMutationInput}
    (request : bulkRequest action (selectedJobs jobs actions) = some sent) :
    sent = wantedJobs action (jobChecked actions) jobs ↔
      ∀ row ∈ jobs, jobChecked actions row = true → action.applies row = true := by
  rw [request_eq_iff (jobChecked actions) request]
  refine forall₂_congr fun row _ => ?_
  cases jobChecked actions row <;> simp

theorem leftChecked_congr {actions : List SelectAction} {p q : ListedJob → Bool}
    (same : ∀ run checked, .job run checked ∈ actions → p run = q run) :
    leftChecked p actions = leftChecked q actions := by
  refine List.foldl_ext _ _ false fun now action mem => ?_
  cases action with
  | all checked => rfl
  | job run checked => simp only [SelectAction.leaves, same run checked mem]

/-- On a page whose job ids are distinct, too, all rows left checked must be ones the action applies to. -/
theorem request_distinct_iff {action : BulkAction} {actions : List SelectAction} {sent : List JobMutationInput}
    (jobIds : (jobs.map (·.jobId)).Nodup) (ids : (jobs.map (·.id)).Nodup)
    (clicked : ∀ run checked, .job run checked ∈ actions → run ∈ jobs)
    (request : bulkRequest action (selectedJobs jobs actions) = some sent) :
    sent = wantedJobs action (rowChecked actions) jobs ↔
      ∀ row ∈ jobs, rowChecked actions row = true → action.applies row = true := by
  have alike : ∀ row ∈ jobs, jobChecked actions row = rowChecked actions row := by
    intro row here
    refine leftChecked_congr fun run checked mem => decide_eq_decide.mpr ?_
    have there := clicked run checked mem
    constructor
    · intro same
      rw [List.inj_on_of_nodup_map jobIds there here same]
    · intro same
      rw [List.inj_on_of_nodup_map ids there here same]
  rw [request_eq_iff (rowChecked actions) request]
  refine forall₂_congr fun row here => ?_
  rw [alike row here]
  cases rowChecked actions row <;> simp

/-- A run of a job of the page. -/
def pageRun (id : Nat) (jobId queue : String) (status : JobStatus) : ListedJob where
  id := id
  jobId := jobId
  queue := queue
  name := none
  status := status
  attempt := 0
  maxAttempts := 1
  createdAt := 1000
  enqueuedAt := some 1000
  startedAt := none
  finishedAt := none
  durationMs := none
  errorMessage := none
  tags := none

def failedMail : ListedJob := pageRun 0 "1" "mail" .failed
def failedReport : ListedJob := pageRun 1 "1" "reports" .failed
def activeMail : ListedJob := pageRun 2 "2" "mail" .active

def failedInvoice : ListedJob := pageRun 3 "3" "invoices" .failed
def completedMail : ListedJob := pageRun 4 "4" "mail" .completed

/-- The whole page is checked; the rows that cannot be replayed are unchecked again, and
    one that can is unchecked and checked. -/
theorem checked_failures_replayed :
    ∃ jobs actions, jobs = [failedMail, activeMail, failedInvoice, completedMail] ∧
      actions = [.all true, .job activeMail false, .job failedInvoice false, .job completedMail false,
        .job failedInvoice true] ∧
      bulkRequest .replay (selectedJobs jobs actions) = some [⟨"1", "mail"⟩, ⟨"3", "invoices"⟩] ∧
      [⟨"1", "mail"⟩, ⟨"3", "invoices"⟩] = wantedJobs .replay (rowChecked actions) jobs :=
  ⟨_, _, rfl, rfl, by decide, (bulk_request_iff (by decide)).mpr (by decide)⟩

/-- Replaying one checked failed job replays another queue's job with its id; with the whole page checked, it replays
    the active job as well. -/
theorem replays_more :
    (bulkRequest .replay (selectedJobs [failedMail, failedReport] [.job failedMail true]) =
        some [⟨"1", "mail"⟩, ⟨"1", "reports"⟩] ∧
      wantedJobs .replay (rowChecked [.job failedMail true]) [failedMail, failedReport] = [⟨"1", "mail"⟩]) ∧
    (bulkRequest .replay (selectedJobs [failedMail, activeMail] [.all true]) =
        some [⟨"1", "mail"⟩, ⟨"2", "mail"⟩] ∧
      wantedJobs .replay (rowChecked [.all true]) [failedMail, activeMail] = [⟨"1", "mail"⟩]) := by
  decide

end BetterBullBoard
