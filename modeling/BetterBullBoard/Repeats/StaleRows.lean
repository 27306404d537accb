import BetterBullBoard.Job.OneKey
import BetterBullBoard.Repeats.ReconcileJobs

/-! # Rows the reconciliation has to repair

A row is neglected while BullMQ has no job for it and its status is neither
terminal nor `unknown`. The page of a visit can miss it only by being full, and
a full page makes progress only through rows that settle: rows whose own job is
finished and which a look at it makes terminal. The rows that can still settle
are a measure that every visit missing a neglected row brings down.
-/

namespace BetterBullBoard

variable {J : Type} [DecidableEq J]

namespace Reconciliation

variable (env : Reconciled J) (last : UpsertContext)

/-- BullMQ has no job for the row, and its status does not say so. -/
def Neglected (r : JobRun J) : Prop :=
  isTerminalStatus r.status = false ∧ r.status ≠ .unknown ∧ (env.bullMq r.queue).jobs r.jobId = none

/-- The row's own job is finished, and still in retention at `last`. -/
def settles (r : JobRun J) : Bool :=
  match ((env.bullMq r.queue).getJob r.jobId).bind (snapshotRun r.queue) with
  | none => false
  | some run =>
      run.target = r.target && isTerminalStatus run.status && isWithinRetention run (getRetentionCutoff last)

/-- The rows the measure is about. -/
def Wanted (r : JobRun J) : Prop := Neglected env r ∨ (isTerminalStatus r.status = false ∧ settles env last r)

/-- The run is the snapshot of a job of the queue. -/
def Known (queueName : String) (jobId : String) (run : JobRunInsert J) : Prop :=
  ((env.bullMq queueName).getJob jobId).bind (snapshotRun queueName) = some run

variable {env last} {s s' : Reconciliation J}

omit [DecidableEq J] in
theorem Known.target {queueName jobId : String} {run : JobRunInsert J} (known : Known env queueName jobId run) :
    ∃ moment, run.target = some (queueName, jobId, moment) := by
  obtain ⟨job, found, formatted⟩ := Option.bind_eq_some_iff.mp known
  obtain ⟨id, queue, enqueued, -, -⟩ := formatJobRun_some formatted
  rw [BullQueue.getJob_id found] at id
  obtain rfl := Option.some.inj id
  exact ⟨job.snapshot.timestamp, by simp only [JobRunInsert.target, enqueued, queue, Nullish.toOption, Option.map_some]⟩

omit [DecidableEq J] in
/-- A row under the key of a known run is a row of its job. -/
theorem Known.row {queueName jobId : String} {run : JobRunInsert J} (known : Known env queueName jobId run)
    {r : JobRun J} (same : r.target = run.target) : r.queue = queueName ∧ r.jobId = jobId := by
  obtain ⟨moment, target⟩ := known.target
  rw [target, JobRun.target, Option.map_eq_some_iff] at same
  obtain ⟨at', -, eq⟩ := same
  simp only [Prod.mk.injEq] at eq
  exact ⟨eq.1, eq.2.1⟩

omit [DecidableEq J] in
theorem Neglected.not_known {r : JobRun J} (neglected : Neglected env r) (run : JobRunInsert J) :
    ¬ Known env r.queue r.jobId run := by
  intro known
  obtain ⟨job, found, -⟩ := Option.bind_eq_some_iff.mp known
  simp [BullQueue.getJob, neglected.2.2] at found

/-- A wanted row is never one that a known run was just written to. -/
theorem wanted_before_upsert {queueName : String} {ctx : UpsertContext} {runs : List (JobRunInsert J)}
    (known : ∀ run ∈ runs, ∃ jobId, Known env queueName jobId run) {t : JobRunsTable J} {r : JobRun J}
    (hr : r ∈ (upsertJobRuns ctx runs t).1.rows) (wanted : Wanted env last r) : r ∈ t.rows := by
  cases mem_upsertJobRuns hr with
  | inl old => exact old
  | inr written =>
      obtain ⟨run, member, target, terminal⟩ := written
      obtain ⟨jobId, known⟩ := known run member
      obtain ⟨rfl, rfl⟩ := known.row target
      cases wanted with
      | inl neglected => exact absurd known (neglected.not_known run)
      | inr settling =>
          have found : ((env.bullMq r.queue).getJob r.jobId).bind (snapshotRun r.queue) = some run := known
          obtain ⟨unended, applies⟩ := settling
          simp only [settles, found, Bool.and_eq_true] at applies
          simp [terminal applies.1.2] at unended

/-! ## One step -/

/-- Every job a step formats can be formatted. -/
def Succeeds (env : Reconciled J) (s : Reconciliation J) : ReconcileAction J → Prop
  | .retained queueName _ => ∀ jobs, (env.bullMq queueName).retainedJobs env.pageSize = some jobs →
      ∀ job ∈ jobs, (snapshotRun queueName job).isSome
  | .row queueName _ => ∀ row rest job, s.visits queueName = .rows (row :: rest) →
      (env.bullMq queueName).getJob row.jobId = some job → (snapshotRun queueName job).isSome
  | _ => True

/-- What a step that succeeds does. -/
inductive Moves (env : Reconciled J) (s : Reconciliation J) : ReconcileAction J → Reconciliation J → Prop where
  | tick {names} : names.Perm env.queueNames → s.AtRest → Moves env s (.tick names) (s.startTick env names)
  | retained {queueName ctx runs} : s.visits queueName = .retained →
      (∀ run ∈ runs, ∃ jobId, Known env queueName jobId run) →
      Moves env s (.retained queueName ctx)
        ({ s with table := (upsertJobRuns ctx runs s.table).1 }.setVisit queueName .missing)
  | missing {queueName returned} : s.visits queueName = .missing →
      Limit.Returns env.pageSize (s.table.rows.filter (isStale queueName)) returned →
      Moves env s (.missing queueName returned)
        (s.setVisit queueName (.rows (returned.map fun r => ⟨r.id, r.jobId⟩)))
  | found {queueName ctx row rest run} : s.visits queueName = .rows (row :: rest) →
      Known env queueName row.jobId run →
      Moves env s (.row queueName ctx)
        ({ s with table := (upsertJobRuns ctx [run] s.table).1 }.setVisit queueName (.rows rest))
  | absent {queueName ctx row rest} : s.visits queueName = .rows (row :: rest) →
      (env.bullMq queueName).getJob row.jobId = none →
      Moves env s (.row queueName ctx)
        ({ s with table := s.table.markUnknown row.id }.setVisit queueName (.rows rest))
  | close {queueName} : s.visits queueName = .rows [] →
      Moves env s (.close queueName) (s.setVisit queueName .idle)

theorem moves_of_step (positive : 0 < env.pageSize) {a : ReconcileAction J} (h : step env s a = some s')
    (succeeds : Succeeds env s a) : Moves env s a s' := by
  cases a with
  | tick names =>
      simp only [step] at h
      split at h
      · rename_i guard
        obtain rfl := Option.some.inj h
        exact .tick guard.1 guard.2
      · simp at h
  | retained queueName ctx =>
      simp only [step] at h
      split at h
      · rename_i visit
        obtain ⟨jobs, pages⟩ := (env.bullMq queueName).exists_retainedJobs positive
        obtain ⟨runs, formatted⟩ := BullQueue.snapshotRuns_some (succeeds jobs pages)
        simp only [BullQueue.retainedRuns, pages, Option.bind_some, formatted] at h
        obtain rfl := Option.some.inj h
        refine .retained visit fun run member => ?_
        obtain ⟨job, hjob, same⟩ := BullQueue.mem_snapshotRuns formatted member
        obtain ⟨-, -, jobId, -, found⟩ := BullQueue.mem_pages pages hjob
        exact ⟨jobId, by rw [Known, found]; exact same⟩
      · simp at h
  | missing queueName returned =>
      simp only [step] at h
      split at h
      · rename_i guard
        obtain rfl := Option.some.inj h
        exact .missing guard.1 guard.2
      · simp at h
  | row queueName ctx =>
      simp only [step] at h
      split at h
      · rename_i row rest visit
        obtain rfl := Option.some.inj h
        unfold checkRow
        cases found : (env.bullMq queueName).getJob row.jobId with
        | none => exact .absent visit found
        | some job =>
            obtain ⟨run, formatted⟩ := Option.isSome_iff_exists.mp (succeeds row rest job visit found)
            simp only [formatted]
            exact .found visit (by rw [Known, found]; exact formatted)
      · simp at h
  | close queueName =>
      simp only [step] at h
      split at h
      · rename_i visit
        obtain rfl := Option.some.inj h
        exact .close visit
      · simp at h

/-- What visits know about the rows they still have to look at. -/
structure Inv (s : Reconciliation J) : Prop where
  listed : ∀ queueName rest, s.visits queueName = .rows rest → ∀ row ∈ rest,
    ∃ r ∈ s.table.rows, r.id = row.id ∧ r.jobId = row.jobId ∧ r.queue = queueName
  idle : ∀ queueName, queueName ∉ s.batch → s.visits queueName = .idle

omit [DecidableEq J] in
theorem Inv.visit (inv : s.Inv) (rest : s.AtRest) (queueName : String) : s.visits queueName = .idle := by
  cases Decidable.em (queueName ∈ s.batch) with
  | inl inside => exact rest queueName inside
  | inr outside => exact inv.idle queueName outside

omit [DecidableEq J] in
theorem Inv.setVisit (inv : s.Inv) {t : JobRunsTable J} {queueName : String} {v : Visit}
    (keeps : JobRunsTable.Survives (fun a b => b.id = a.id ∧ b.queue = a.queue ∧ b.jobId = a.jobId) s.table t)
    (active : s.visits queueName ≠ .idle)
    (listed : ∀ rest, v = .rows rest → ∀ row ∈ rest,
      ∃ r ∈ s.table.rows, r.id = row.id ∧ r.jobId = row.jobId ∧ r.queue = queueName) :
    ({ s with table := t }.setVisit queueName v).Inv where
  listed := by
    intro queueName' rest visit row hrow
    have old : ∃ r ∈ s.table.rows, r.id = row.id ∧ r.jobId = row.jobId ∧ r.queue = queueName' := by
      cases Decidable.em (queueName' = queueName) with
      | inl same =>
          subst same
          exact listed rest (by simpa [Reconciliation.setVisit] using visit) row hrow
      | inr other =>
          refine inv.listed queueName' rest ?_ row hrow
          simpa [Reconciliation.setVisit, Function.update_of_ne other] using visit
    obtain ⟨r, hr, id, jobId, queue⟩ := old
    obtain ⟨r', hr', id', queue', jobId'⟩ := keeps r hr
    exact ⟨r', hr', id'.trans id, jobId'.trans jobId, queue'.trans queue⟩
  idle := by
    intro queueName' outside
    have idle := inv.idle queueName' outside
    have other : queueName' ≠ queueName := fun same => active (same ▸ idle)
    simpa [Reconciliation.setVisit, Function.update_of_ne other] using idle

theorem Moves.keeps {a : ReconcileAction J} (h : Moves env s a s') :
    JobRunsTable.Survives (fun a b => b.id = a.id ∧ b.queue = a.queue ∧ b.jobId = a.jobId) s.table s'.table := by
  cases h with
  | retained => exact upsertJobRuns_keeps _ _ _
  | found => exact upsertJobRuns_keeps _ _ _
  | absent => exact JobRunsTable.markUnknown_keeps _ _
  | tick | missing | close => exact JobRunsTable.Survives.refl (fun _ => ⟨rfl, rfl, rfl⟩) _

theorem Inv.step (inv : s.Inv) {a : ReconcileAction J} (h : Moves env s a s') : s'.Inv := by
  have keeps := h.keeps
  cases h with
  | tick _ _ =>
      refine ⟨fun queueName rest visit => ?_, fun queueName outside => ?_⟩
      · simp only [startTick] at visit
        split at visit <;> simp at visit
      · simp only [startTick] at outside ⊢
        rw [if_neg outside]
  | retained visit => exact inv.setVisit keeps (by simp [visit]) (by simp)
  | @missing queueName returned visit returns =>
      refine inv.setVisit keeps (by simp [visit]) ?_
      intro rest eq row hrow
      obtain rfl := Visit.rows.inj eq
      obtain ⟨r, hr, rfl⟩ := List.mem_map.mp hrow
      obtain ⟨member, stale⟩ := List.mem_filter.mp (returns.mem hr)
      simp only [isStale, Bool.and_eq_true, decide_eq_true_eq] at stale
      exact ⟨r, member, rfl, rfl, stale.1⟩
  | @found queueName _ row rest _ visit _ =>
      refine inv.setVisit keeps (by simp [visit]) ?_
      intro rest' eq row' hrow
      obtain rfl := Visit.rows.inj eq
      exact inv.listed queueName _ visit row' (List.mem_cons_of_mem _ hrow)
  | @absent queueName _ row rest visit _ =>
      refine inv.setVisit keeps (by simp [visit]) ?_
      intro rest' eq row' hrow
      obtain rfl := Visit.rows.inj eq
      exact inv.listed queueName _ visit row' (List.mem_cons_of_mem _ hrow)
  | close visit => exact inv.setVisit keeps (by simp [visit]) (by simp)

variable (last) in
/-- Steps only take wanted rows away. -/
theorem Moves.wanted_before {a : ReconcileAction J} (h : Moves env s a s') (inv : s.Inv) {r : JobRun J}
    (hr : r ∈ s'.table.rows) (wanted : Wanted env last r) : r ∈ s.table.rows := by
  cases h with
  | tick | missing | close => exact hr
  | retained _ known => exact wanted_before_upsert known hr wanted
  | @found queueName _ row _ run _ known =>
      have all : ∀ run' ∈ [run], ∃ jobId, Known env queueName jobId run' := by
        intro run' member
        obtain rfl := List.mem_singleton.mp member
        exact ⟨row.jobId, known⟩
      exact wanted_before_upsert all hr wanted
  | @absent queueName _ row rest visit gone =>
      obtain ⟨old, hold, rfl⟩ := List.mem_map.mp hr
      cases Decidable.em (old.id = row.id) with
      | inr other => simpa [other] using hold
      | inl same =>
          simp only [same, decide_true, if_true] at wanted
          obtain ⟨r, member, id, jobId, queue⟩ := inv.listed queueName _ visit row List.mem_cons_self
          obtain rfl := s.table.eq_of_id hold member (same.trans id.symm)
          cases wanted with
          | inl neglected => exact absurd rfl neglected.2.1
          | inr settling => simp [settles, queue, jobId, gone] at settling

end Reconciliation

end BetterBullBoard
