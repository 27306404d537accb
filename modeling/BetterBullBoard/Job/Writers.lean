import BetterBullBoard.Lib.Limit
import BetterBullBoard.Lib.Machine
import BetterBullBoard.Job.Upsert

/-! # The writers of `job_runs.status`

Three kinds of writers run side by side: `upsertJobRuns` (stream consumers and
reconcilers), the loop of `reconcileMissingNonTerminalRows`, and `cancelJob` of
the core package. An action is one database statement of one of them, so a run
interleaves their statements in any way. What BullMQ answers is part of the
action.
-/

namespace BetterBullBoard

variable {J : Type}

def nonTerminalStatuses : List JobStatus :=
  [.waiting, .active, .delayed, .prioritized, .waitingChildren, .unknown]

theorem mem_nonTerminalStatuses (s : JobStatus) : s ∈ nonTerminalStatuses ↔ isTerminalStatus s = false := by
  cases s <;> decide

namespace JobRunsTable

/-- `UPDATE .. SET status = 'unknown' WHERE id = ..` -/
def markUnknown (t : JobRunsTable J) (id : Nat) : JobRunsTable J :=
  t.update (fun r => r.id = id) (fun r => { r with status := .unknown }) (fun _ => rfl) (fun _ => rfl)

theorem markUnknown_status {t : JobRunsTable J} {id : Nat} {r : JobRun J}
    (hr : r ∈ (t.markUnknown id).rows) (marked : r.id = id) : r.status = .unknown := by
  obtain ⟨old, -, rfl⟩ := List.mem_map.mp hr
  by_cases h : old.id = id
  · simp [h]
  · simp [h] at marked

theorem markUnknown_keeps (t : JobRunsTable J) (id : Nat) :
    Survives (fun a b => b.id = a.id ∧ b.queue = a.queue ∧ b.jobId = a.jobId) t (t.markUnknown id) := by
  unfold markUnknown
  exact update_survives t (fun _ _ _ => ⟨rfl, rfl, rfl⟩) fun _ _ _ => ⟨rfl, rfl, rfl⟩

/-- The update of `cancelJob`, over every run of the job. -/
def markCancelled (t : JobRunsTable J) (jobId queue : String) : JobRunsTable J :=
  t.update (fun r => r.jobId = jobId && r.queue = queue)
    (fun r => { r with status := .failed, errorMessage := some "Job cancelled" })
    (fun _ => rfl) (fun _ => rfl)

end JobRunsTable

/-- The columns the reconciler reads from a stale row. -/
structure StaleRow where
  id : Nat
  jobId : String
  deriving Repr, DecidableEq

/-- The condition of the reconciler's query. -/
def isStale (queueName : String) (r : JobRun J) : Bool :=
  r.queue = queueName && r.status ∈ nonTerminalStatuses

/-- Where a reconciler stands in `reconcileMissingNonTerminalRows`. -/
inductive Reconciler where
  | idle
  | marking (queueName : String) (staleRows : List StaleRow)
  deriving Repr, DecidableEq

/-- Where a caller stands in the transaction of `cancelJob`. -/
inductive Canceller where
  | idle
  | updating (jobId queue : String)
  deriving Repr, DecidableEq

structure Writers (J : Type) where
  table : JobRunsTable J
  reconcilers : Nat → Reconciler := fun _ => .idle
  cancellers : Nat → Canceller := fun _ => .idle

inductive Write (J : Type) where
  /-- Any call of `upsertJobRuns`. -/
  | upsert (ctx : UpsertContext) (runs : List (JobRunInsert J))
  /-- The reconciler's `SELECT`, with the rows its unordered limit returns. -/
  | selectStale (i : Nat) (queueName : String) (pageSize : Nat) (returned : List (JobRun J))
  /-- `getJob` found the first row's job: upsert its snapshot. -/
  | storeFound (i : Nat) (ctx : UpsertContext) (job : JobSnapshot J) (processedBy state : Option String)
  /-- `getJob` found no job for the first row: mark it unknown. -/
  | markUnknown (i : Nat)
  /-- The loop ends on an error. -/
  | abandon (i : Nat)
  /-- The `SELECT .. LIMIT 1` of `cancelJob`, with the row it returns. -/
  | cancelSelect (i : Nat) (jobId queue : String) (returned : List (JobRun J))
  | cancelUpdate (i : Nat)
  | cancelRollback (i : Nat)

variable [DecidableEq J]

namespace Writers

def setReconciler (w : Writers J) (i : Nat) (r : Reconciler) : Writers J :=
  { w with reconcilers := Function.update w.reconcilers i r }

def setCanceller (w : Writers J) (i : Nat) (c : Canceller) : Writers J :=
  { w with cancellers := Function.update w.cancellers i c }

def step (w : Writers J) : Write J → Option (Writers J)
  | .upsert ctx runs => some { w with table := (upsertJobRuns ctx runs w.table).1 }
  | .selectStale i queueName pageSize returned =>
      if w.reconcilers i = .idle ∧
          Limit.Returns pageSize (w.table.rows.filter (isStale queueName)) returned then
        some (w.setReconciler i (.marking queueName (returned.map fun r => ⟨r.id, r.jobId⟩)))
      else none
  | .storeFound i ctx job processedBy state =>
      match w.reconcilers i with
      | .marking queueName (_ :: rest) =>
          match formatJobRun job queueName processedBy .undefined (some .snapshot) state with
          | none => some (w.setReconciler i .idle)
          | some run =>
              some ({ w with table := (upsertJobRuns ctx [run] w.table).1 }.setReconciler i
                (.marking queueName rest))
      | _ => none
  | .markUnknown i =>
      match w.reconcilers i with
      | .marking queueName (row :: rest) =>
          some ({ w with table := w.table.markUnknown row.id }.setReconciler i (.marking queueName rest))
      | _ => none
  | .abandon i => some (w.setReconciler i .idle)
  | .cancelSelect i jobId queue returned =>
      if w.cancellers i = .idle ∧
          Limit.Returns 1 (w.table.rows.filter fun r => r.jobId = jobId && r.queue = queue) returned then
        match returned with
        | job :: _ =>
            if isTerminalStatus job.status then some w else some (w.setCanceller i (.updating jobId queue))
        | [] => some w
      else none
  | .cancelUpdate i =>
      match w.cancellers i with
      | .updating jobId queue =>
          some ({ w with table := w.table.markCancelled jobId queue }.setCanceller i .idle)
      | .idle => none
  | .cancelRollback i => some (w.setCanceller i .idle)

/-- What one statement can do to the table. -/
inductive Effect (w : Writers J) (a : Write J) : JobRunsTable J → Prop where
  | nothing : Effect w a w.table
  | upserted (ctx runs) : Effect w a (upsertJobRuns ctx runs w.table).1
  | unknown {i queueName row rest} : a = .markUnknown i →
      w.reconcilers i = .marking queueName (row :: rest) → Effect w a (w.table.markUnknown row.id)
  | cancelled (jobId queue) : Effect w a (w.table.markCancelled jobId queue)

theorem step_effect {w w' : Writers J} {a : Write J} (h : step w a = some w') : Effect w a w'.table := by
  cases a with
  | upsert ctx runs =>
      obtain rfl := Option.some.inj h
      exact .upserted ctx runs
  | selectStale i queueName pageSize returned =>
      simp only [step] at h
      split at h
      · obtain rfl := Option.some.inj h
        exact .nothing
      · simp at h
  | storeFound i ctx job processedBy state =>
      simp only [step] at h
      split at h
      · split at h
        · obtain rfl := Option.some.inj h
          exact .nothing
        · obtain rfl := Option.some.inj h
          exact .upserted ctx _
      · simp at h
  | markUnknown i =>
      simp only [step] at h
      split at h
      · rename_i pending
        obtain rfl := Option.some.inj h
        exact .unknown rfl pending
      · simp at h
  | abandon i =>
      obtain rfl := Option.some.inj h
      exact .nothing
  | cancelSelect i jobId queue returned =>
      simp only [step] at h
      split at h
      · split at h
        · split at h <;> (obtain rfl := Option.some.inj h; exact .nothing)
        · obtain rfl := Option.some.inj h
          exact .nothing
      · simp at h
  | cancelUpdate i =>
      simp only [step] at h
      split at h
      · obtain rfl := Option.some.inj h
        exact .cancelled _ _
      · simp at h
  | cancelRollback i =>
      obtain rfl := Option.some.inj h
      exact .nothing

/-- Every stored run is still stored, and still terminal if it was. -/
def TerminalKept (t t' : JobRunsTable J) : Prop :=
  t.Survives (fun r r' => r'.id = r.id ∧ (isTerminalStatus r.status → isTerminalStatus r'.status)) t'

/-- Marking unknown meets only rows that are still open (or gone). -/
def MarksOpenRow (w : Writers J) : Write J → Prop
  | .markUnknown i => ∀ queueName row rest, w.reconcilers i = .marking queueName (row :: rest) →
      ∀ r ∈ w.table.rows, r.id = row.id → isTerminalStatus r.status = false
  | _ => True

omit [DecidableEq J] in
theorem TerminalKept.trans (a b c : Writers J) (first : TerminalKept a.table b.table)
    (second : TerminalKept b.table c.table) : TerminalKept a.table c.table :=
  JobRunsTable.Survives.trans (fun _ _ _ h h' => ⟨h'.1.trans h.1, h'.2 ∘ h.2⟩) first second

theorem Effect.terminalKept {w : Writers J} {a : Write J} {t : JobRunsTable J} (effect : Effect w a t)
    (opened : MarksOpenRow w a) : TerminalKept w.table t := by
  cases effect with
  | nothing => exact JobRunsTable.Survives.refl (fun _ => ⟨rfl, id⟩) _
  | upserted ctx runs =>
      apply JobRunsTable.upsert_survives (fun _ => ⟨rfl, id⟩)
        (fun _ _ _ h h' => ⟨h'.1.trans h.1, h'.2 ∘ h.2⟩) ctx runs
      intro old newId run _ _ _
      exact ⟨onConflict_id _ _, onConflict_terminal _ _⟩
  | unknown isMark pending =>
      subst isMark
      apply JobRunsTable.update_survives _ (fun _ _ _ => ⟨rfl, id⟩)
      intro r hr target
      have unended := opened _ _ _ pending r hr (by simpa using target)
      exact ⟨rfl, fun terminal => by simp [unended] at terminal⟩
  | cancelled jobId queue =>
      exact JobRunsTable.update_survives _ (fun _ _ _ => ⟨rfl, id⟩) fun _ _ _ => ⟨rfl, fun _ => rfl⟩

theorem opened_of_terminalKept {w w' : Writers J} {a : Write J} (h : step w a = some w')
    (kept : TerminalKept w.table w'.table) : MarksOpenRow w a := by
  cases a with
  | markUnknown i =>
      intro queueName row rest pending r hr same
      simp only [step, pending] at h
      obtain rfl := Option.some.inj h
      obtain ⟨r', hr', sameId, still⟩ := kept r hr
      have unknown : r'.status = .unknown := JobRunsTable.markUnknown_status hr' (sameId.trans same)
      rw [unknown] at still
      by_contra terminal
      simpa [isTerminalStatus] using still (by simpa using terminal)
  | _ => trivial

/-- Every statement but one kind keeps terminal rows terminal, and that one
    kind does exactly when its row is still open. -/
theorem terminalKept_iff {w w' : Writers J} {a : Write J} (h : step w a = some w') :
    TerminalKept w.table w'.table ↔ MarksOpenRow w a :=
  ⟨opened_of_terminalKept h, (step_effect h).terminalKept⟩

/-- In any interleaving, a run that reached a terminal status keeps one in all
    later states exactly when no marking as unknown meets a terminal row. -/
theorem terminal_status_sticky_iff {w w' : Writers J} {ts : List (Machine.Transition (Writers J) (Write J))}
    (run : Machine.Run step w ts w') :
    (Machine.states w ts).Pairwise (fun a b => TerminalKept a.table b.table) ↔ ∀ x ∈ ts, MarksOpenRow x.pre x.act := by
  rw [run.pairwise_iff TerminalKept.trans]
  have enabled := run.enabled
  constructor <;> intro h x hx
  · exact (terminalKept_iff (enabled x hx)).mp (h x hx)
  · exact (terminalKept_iff (enabled x hx)).mpr (h x hx)

def emptyWriters : Writers Unit := { table := .empty }

/-- A waiting event that arrives after the terminal one is harmless. -/
def lateWaiting : List (Write Unit) :=
  [.upsert {} [mailRun .completed (some 2000)], .upsert {} [mailRun .waiting none]]

theorem terminal_status_sticky_late_waiting :
    ∃ ts w', Machine.Run step emptyWriters ts w' ∧ ts.length = 2 ∧
      (Machine.states emptyWriters ts).Pairwise
        (fun a b => TerminalKept a.table b.table) := by
  have performed : Machine.perform step emptyWriters lateWaiting = some _ := rfl
  refine ⟨_, _, Machine.perform_run performed, rfl,
    (terminal_status_sticky_iff (Machine.perform_run performed)).mpr ?_⟩
  intro x hx
  rcases List.mem_cons.mp hx with rfl | hx
  · trivial
  · obtain rfl := List.mem_singleton.mp hx
    trivial

/-- The reconciler reads the active row, the terminal event is stored, and the
    job, removed on completion, is not found. -/
def lateMark : List (Write Unit) :=
  [.upsert {} [mailRun .active none],
    .selectStale 0 "mail" 500 [excluded {} 0 (mailRun .active none)],
    .upsert {} [mailRun .completed (some 2000)],
    .markUnknown 0]

theorem mark_unknown_overwrites_completed :
    ¬ ∀ (w w' : Writers Unit) (ts : List (Machine.Transition (Writers Unit) (Write Unit))),
      Machine.Run step w ts w' →
        (Machine.states w ts).Pairwise (fun a b => TerminalKept a.table b.table) := by
  intro sticky
  have performed : Machine.perform step emptyWriters lateMark = some _ := rfl
  have run := Machine.perform_run performed
  have kept := (run.pairwise_iff TerminalKept.trans).mp (sticky _ _ _ run) _
    (List.mem_cons_of_mem _ (List.mem_cons_of_mem _ (List.mem_cons_of_mem _ List.mem_cons_self)))
  have opened := opened_of_terminalKept (run.enabled _
    (List.mem_cons_of_mem _ (List.mem_cons_of_mem _ (List.mem_cons_of_mem _ List.mem_cons_self)))) kept
  have := opened "mail" ⟨0, "1"⟩ [] rfl
    (excluded {} 0 (mailRun .completed (some 2000))) (by decide) rfl
  simp [excluded, mailRun, isTerminalStatus] at this

end Writers

end BetterBullBoard
