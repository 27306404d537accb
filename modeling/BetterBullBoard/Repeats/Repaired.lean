import BetterBullBoard.Repeats.StaleRows
import BetterBullBoard.Repeats.QueueBatches

/-! # How many ticks repair a table

A visit that leaves a neglected row where it was has looked at a row that then
settled. So the row outlasts at most as many visits of its queue as there are
rows to settle, and the cursor brings the queue round in a fixed number of ticks.
-/

namespace BetterBullBoard

variable {J : Type} [DecidableEq J]

namespace Reconciliation

/-- The queue's rows that can still settle. -/
def settlingRows (env : Reconciled J) (last : UpsertContext) (queueName : String) (t : JobRunsTable J) :
    List (JobRun J) :=
  t.rows.filter fun r => isStale queueName r && settles env last r

/-- The visit still has to look at the neglected row, or at one that settles. -/
def Owes (env : Reconciled J) (last : UpsertContext) (r : JobRun J) (s : Reconciliation J) : Visit → Prop
  | .idle => False
  | .retained | .missing => True
  | .rows rest => ∃ y ∈ s.table.rows, (y = r ∨ (isStale r.queue y && settles env last y)) ∧ ⟨y.id, y.jobId⟩ ∈ rest

/-- A full page leaves no neglected row out without reaching a row that settles,
    and a row found finished in time is still in retention when it is upserted. -/
def Reaches (env : Reconciled J) (last : UpsertContext) (s : Reconciliation J) : ReconcileAction J → Prop
  | .missing queueName _ => (∃ r ∈ s.table.rows, r.queue = queueName ∧ Neglected env r) →
      (s.table.rows.filter fun r => isStale queueName r && !settles env last r).length ≤ env.pageSize
  | .row _ ctx => ∀ run : JobRunInsert J, isWithinRetention run (getRetentionCutoff last) →
      isWithinRetention run (getRetentionCutoff ctx)
  | _ => True

variable {env : Reconciled J} {last : UpsertContext} {s s' : Reconciliation J} {a : ReconcileAction J} {r : JobRun J}

omit [DecidableEq J] in
theorem isStale_iff {queueName : String} {r : JobRun J} :
    isStale queueName r ↔ r.queue = queueName ∧ isTerminalStatus r.status = false := by
  simp [isStale, mem_nonTerminalStatuses]

theorem settlingRows_before (h : Moves env s a s') (inv : s.Inv) (queueName : String) :
    settlingRows env last queueName s'.table ⊆ settlingRows env last queueName s.table := by
  intro y hy
  obtain ⟨member, settling⟩ := List.mem_filter.mp hy
  obtain ⟨stale, applies⟩ := Bool.and_eq_true_iff.mp settling
  exact List.mem_filter.mpr ⟨h.wanted_before last inv member (.inr ⟨(isStale_iff.mp stale).2, applies⟩), settling⟩

omit [DecidableEq J] in
theorem nodup_settlingRows (queueName : String) (t : JobRunsTable J) :
    (settlingRows env last queueName t).Nodup := (List.Nodup.of_map _ t.ids).filter _

variable (last) in
theorem settling_le (h : Moves env s a s') (inv : s.Inv) (queueName : String) :
    (settlingRows env last queueName s'.table).length ≤ (settlingRows env last queueName s.table).length :=
  ((nodup_settlingRows queueName s'.table).subperm (settlingRows_before h inv queueName)).length_le

/-- A row that settled is missing from the measure. -/
theorem settling_lt (h : Moves env s a s') (inv : s.Inv) {queueName : String} {y : JobRun J}
    (before : y ∈ settlingRows env last queueName s.table) (gone : y ∉ s'.table.rows) :
    (settlingRows env last queueName s'.table).length < (settlingRows env last queueName s.table).length := by
  have outside : y ∉ settlingRows env last queueName s'.table := fun hy => gone (List.mem_filter.mp hy).1
  have distinct := List.nodup_cons.mpr ⟨outside, nodup_settlingRows queueName s'.table⟩
  exact (distinct.subperm (List.cons_subset.mpr ⟨before, settlingRows_before h inv queueName⟩)).length_le

/-- What was owed is still owed, or a row settled. -/
theorem Owes.later {v : Visit} (owes : Owes env last r s v) (h : Moves env s a s') (inv : s.Inv)
    (stays : r ∈ s'.table.rows) :
    Owes env last r s' v ∨
      (settlingRows env last r.queue s'.table).length < (settlingRows env last r.queue s.table).length := by
  cases v with
  | idle => exact owes.elim
  | retained | missing => exact .inl trivial
  | rows rest =>
      obtain ⟨y, member, kind, listed⟩ := owes
      cases Decidable.em (y ∈ s'.table.rows) with
      | inl still => exact .inl ⟨y, still, kind, listed⟩
      | inr gone =>
          cases kind with
          | inl same => exact absurd (same ▸ stays) gone
          | inr settling => exact .inr (settling_lt h inv (List.mem_filter.mpr ⟨member, settling⟩) gone)

/-- A known run of a row that settles makes it terminal. -/
theorem settled_by {queueName jobId : String} {ctx : UpsertContext} {run : JobRunInsert J}
    (known : Known env queueName jobId run)
    (clock : ∀ run : JobRunInsert J, isWithinRetention run (getRetentionCutoff last) →
      isWithinRetention run (getRetentionCutoff ctx))
    {y : JobRun J} (queue : y.queue = queueName) (id : y.jobId = jobId) (settling : settles env last y)
    {t : JobRunsTable J} (hy : y ∈ (upsertJobRuns ctx [run] t).1.rows) : isTerminalStatus y.status := by
  have found : ((env.bullMq y.queue).getJob y.jobId).bind (snapshotRun y.queue) = some run := by
    rw [queue, id]
    exact known
  simp only [settles, found, Bool.and_eq_true, decide_eq_true_eq] at settling
  obtain ⟨moment, target⟩ := known.target
  exact upsert_finished target (clock run settling.2) settling.1.2 hy (settling.1.1.symm.trans target)

omit [DecidableEq J] in
/-- A row that is looked at and not owed leaves the debt with the rest. -/
theorem Owes.rest {row : StaleRow} {rest : List StaleRow} (owes : Owes env last r s (.rows (row :: rest)))
    (paid : ∀ y ∈ s.table.rows, y = r ∨ (isStale r.queue y && settles env last y) →
      (⟨y.id, y.jobId⟩ : StaleRow) ≠ row) :
    Owes env last r s (.rows rest) := by
  obtain ⟨y, member, kind, listed⟩ := owes
  exact ⟨y, member, kind, (List.mem_cons.mp listed).resolve_left (paid y member kind)⟩

omit [DecidableEq J] in
/-- A page that is not full of rows that never settle is owed for. -/
theorem page_owes {returned : List (JobRun J)} (before : r ∈ s.table.rows) (neglected : Neglected env r)
    (reaches : Reaches env last s (.missing r.queue returned))
    (returns : Limit.Returns env.pageSize (s.table.rows.filter (isStale r.queue)) returned) :
    Owes env last r s (.rows (returned.map fun r => ⟨r.id, r.jobId⟩)) := by
  have lacks : settles env last r = false := by
    simp [settles, BullQueue.getJob, neglected.2.2]
  have candidate : r ∈ s.table.rows.filter (isStale r.queue) :=
    List.mem_filter.mpr ⟨before, isStale_iff.mpr ⟨rfl, neglected.1⟩⟩
  have fits := reaches ⟨r, before, rfl, neglected⟩
  rw [← List.filter_filter, List.filter_comm] at fits
  simp only [Owes, List.mem_map]
  cases returns.progress ((List.Nodup.of_map _ s.table.ids).filter _) fits candidate lacks with
  | inl inside => exact ⟨r, before, .inl rfl, r, inside, rfl⟩
  | inr settled =>
      obtain ⟨y, hy, settling⟩ := settled
      obtain ⟨member, stale⟩ := List.mem_filter.mp (returns.mem hy)
      exact ⟨y, member, .inr (by rw [stale, settling]; rfl), y, hy, rfl⟩

/-- A row that was found is not the neglected one, and has settled. -/
theorem found_pays {row : StaleRow} {ctx : UpsertContext} {run : JobRunInsert J} {t : JobRunsTable J}
    (neglected : Neglected env r) (known : Known env r.queue row.jobId run)
    (clock : ∀ run : JobRunInsert J, isWithinRetention run (getRetentionCutoff last) →
      isWithinRetention run (getRetentionCutoff ctx)) :
    ∀ y ∈ (upsertJobRuns ctx [run] t).1.rows, y = r ∨ (isStale r.queue y && settles env last y) →
      (⟨y.id, y.jobId⟩ : StaleRow) ≠ row := by
  rintro y hy kind rfl
  cases kind with
  | inl same => exact absurd (same ▸ known) (neglected.not_known run)
  | inr settling =>
      obtain ⟨stale, settling⟩ := Bool.and_eq_true_iff.mp settling
      obtain ⟨queue, unended⟩ := isStale_iff.mp stale
      simp [settled_by known clock queue rfl settling hy] at unended

omit [DecidableEq J] in
/-- A row without a job is marked, and does not settle otherwise. -/
theorem absent_pays {row : StaleRow} {t : JobRunsTable J} (neglected : Neglected env r)
    (gone : (env.bullMq r.queue).getJob row.jobId = none) :
    ∀ y ∈ (t.markUnknown row.id).rows, y = r ∨ (isStale r.queue y && settles env last y) →
      (⟨y.id, y.jobId⟩ : StaleRow) ≠ row := by
  rintro y hy kind rfl
  cases kind with
  | inl same => exact absurd (JobRunsTable.markUnknown_status (same ▸ hy) rfl) neglected.2.1
  | inr settling =>
      obtain ⟨stale, settling⟩ := Bool.and_eq_true_iff.mp settling
      simp [settles, (isStale_iff.mp stale).1, gone] at settling

/-- A step on the queue of a neglected row keeps the debt of its visit or pays
    it by a row that settles. -/
theorem owes_step (h : Moves env s a s') (inv : s.Inv) (reaches : Reaches env last s a) (before : r ∈ s.table.rows)
    (stays : r ∈ s'.table.rows) (neglected : Neglected env r) (owes : Owes env last r s (s.visits r.queue)) :
    Owes env last r s' (s'.visits r.queue) ∨
      (settlingRows env last r.queue s'.table).length < (settlingRows env last r.queue s.table).length := by
  have later := owes.later h inv stays
  cases h with
  | tick _ rest =>
      rw [inv.visit rest] at owes
      exact owes.elim
  | @retained queueName _ _ visit _ =>
      cases Decidable.em (r.queue = queueName) with
      | inl same => exact .inl (by simp [setVisit, same, Owes])
      | inr other => simpa [setVisit, Function.update_of_ne other] using later
  | @missing queueName returned visit returns =>
      cases Decidable.em (r.queue = queueName) with
      | inr other => simpa [setVisit, Function.update_of_ne other] using later
      | inl same =>
          subst same
          simp only [setVisit, Function.update_self]
          exact .inl (page_owes before neglected reaches returns)
  | @found queueName ctx row rest run visit known =>
      cases Decidable.em (r.queue = queueName) with
      | inr other => simpa [setVisit, Function.update_of_ne other] using later
      | inl same =>
          subst same
          rw [visit] at later
          simp only [setVisit, Function.update_self] at later ⊢
          exact later.imp (fun debt => debt.rest (found_pays neglected known reaches)) id
  | @absent queueName ctx row rest visit gone =>
      cases Decidable.em (r.queue = queueName) with
      | inr other => simpa [setVisit, Function.update_of_ne other] using later
      | inl same =>
          subst same
          rw [visit] at later
          simp only [setVisit, Function.update_self] at later ⊢
          exact later.imp (fun debt => debt.rest (absent_pays neglected gone)) id
  | @close queueName visit =>
      cases Decidable.em (r.queue = queueName) with
      | inr other => simpa [setVisit, Function.update_of_ne other] using later
      | inl same =>
          subst same
          rw [visit] at owes
          obtain ⟨y, -, -, listed⟩ := owes
          simp at listed

/-! ## Counting visits -/

open Classical in
/-- How many visits of its queue the neglected row can still outlast. -/
noncomputable def patience (env : Reconciled J) (last : UpsertContext) (r : JobRun J) (s : Reconciliation J) : Nat :=
  (settlingRows env last r.queue s.table).length + if Owes env last r s (s.visits r.queue) then 0 else 1

omit [DecidableEq J] in
theorem patience_owing (h : Owes env last r s (s.visits r.queue)) :
    patience env last r s = (settlingRows env last r.queue s.table).length := by
  simp [patience, h]

omit [DecidableEq J] in
theorem patience_free (h : ¬ Owes env last r s (s.visits r.queue)) :
    patience env last r s = (settlingRows env last r.queue s.table).length + 1 := by
  simp [patience, h]

omit [DecidableEq J] in
theorem patience_idle (h : s.visits r.queue = .idle) :
    patience env last r s = (settlingRows env last r.queue s.table).length + 1 :=
  patience_free (by rw [h]; exact id)

theorem patience_step (h : Moves env s a s') (inv : s.Inv) (reaches : Reaches env last s a)
    (before : r ∈ s.table.rows) (stays : r ∈ s'.table.rows) (neglected : Neglected env r) :
    patience env last r s' ≤ patience env last r s := by
  have less := settling_le last h inv r.queue
  have step := owes_step h inv reaches before stays neglected
  cases Classical.em (Owes env last r s (s.visits r.queue)) with
  | inr free =>
      rw [patience_free free]
      cases Classical.em (Owes env last r s' (s'.visits r.queue)) with
      | inl owes => rw [patience_owing owes]; omega
      | inr free' => rw [patience_free free']; omega
  | inl owes =>
      rw [patience_owing owes]
      cases Classical.em (Owes env last r s' (s'.visits r.queue)) with
      | inl owes' => rw [patience_owing owes']; omega
      | inr free => rw [patience_free free]; exact (step owes).resolve_left free

/-- The queues whose turn it is at a cursor, and the next cursor. -/
def batchAt (env : Reconciled J) (queueCursor : Nat) : List String :=
  (selectQueueBatch env.maxQueuesPerTick (Utf16.sort env.queueNames) queueCursor).1.filter (· ≠ "")

def cursorAfter (env : Reconciled J) (queueCursor : Nat) : Nat :=
  (selectQueueBatch env.maxQueuesPerTick (Utf16.sort env.queueNames) queueCursor).2

def isTick : ReconcileAction J → Bool
  | .tick _ => true
  | _ => false

def ticks (ts : List (Machine.Transition (Reconciliation J) (ReconcileAction J))) : Nat :=
  ts.countP fun x => isTick x.act

omit [DecidableEq J] in
theorem startTick_batch {names : List String} (perm : names.Perm env.queueNames) :
    (s.startTick env names).batch = batchAt env s.queueCursor ∧
      (s.startTick env names).queueCursor = cursorAfter env s.queueCursor := by
  simp only [startTick, batchAt, cursorAfter, Utf16.sort_eq perm, and_self]

variable (last r) in
/-- A tick whose batch holds the row's queue starts a visit that owes. -/
theorem patience_tick {names : List String} (h : Moves env s (.tick names) s') (inv : s.Inv) :
    (if r.queue ∈ batchAt env s.queueCursor then 1 else 0) + patience env last r s' ≤ patience env last r s ∧
      s'.queueCursor = cursorAfter env s.queueCursor := by
  cases h with
  | tick perm rest =>
      obtain ⟨batch, cursor⟩ := startTick_batch (s := s) perm
      refine ⟨?_, cursor⟩
      have visits : (s.startTick env names).visits r.queue =
          if r.queue ∈ batchAt env s.queueCursor then .retained else .idle := by
        rw [← batch]
        rfl
      rw [patience_idle (inv.visit rest r.queue)]
      split
      · rename_i turn
        rw [patience_owing (by rw [visits, if_pos turn]; trivial), Nat.add_comm]
        exact Nat.le_refl _
      · rename_i later
        rw [patience_idle (by rw [visits, if_neg later]), Nat.zero_add]
        exact Nat.le_refl _

theorem Moves.cursor (h : Moves env s a s') (other : isTick a = false) : s'.queueCursor = s.queueCursor := by
  cases h with
  | tick => simp [isTick] at other
  | _ => rfl

variable {ts : List (Machine.Transition (Reconciliation J) (ReconcileAction J))}

/-- Over a run, the visits of its queue wear out a neglected row's patience. -/
theorem visits_le (run : Machine.Run (step env) s ts s') (positive : 0 < env.pageSize)
    (steps : ∀ x ∈ ts, Succeeds env x.pre x.act ∧ Reaches env last x.pre x.act) (inv : s.Inv)
    (stays : r ∈ s'.table.rows) (neglected : Neglected env r) :
    Nat.count (fun i => r.queue ∈ batchAt env ((cursorAfter env)^[i] s.queueCursor)) (ticks ts) +
        patience env last r s' ≤ patience env last r s ∧ r ∈ s.table.rows ∧ s'.Inv := by
  induction run with
  | done => exact ⟨by simp [ticks], stays, inv⟩
  | @next s a s₁ ts t enabled _ ih =>
      simp only [List.forall_mem_cons] at steps
      have moves := moves_of_step positive enabled steps.1.1
      obtain ⟨bound, stays₁, invEnd⟩ := ih steps.2 (inv.step moves) stays
      have before := moves.wanted_before last inv stays₁ (.inl neglected)
      refine ⟨?_, before, invEnd⟩
      cases a with
      | tick names =>
          obtain ⟨paid, cursor⟩ := patience_tick last r moves inv
          rw [cursor] at bound
          have more : ticks (⟨s, .tick names, s₁⟩ :: ts) = ticks ts + 1 := List.countP_cons_of_pos rfl
          have first := RoundRobin.count_iterate_succ (fun c => r.queue ∈ batchAt env c) (cursorAfter env)
            s.queueCursor (ticks ts)
          rw [more, first]
          omega
      | _ =>
          have step := patience_step moves inv steps.1.2 before stays₁ neglected
          rw [moves.cursor rfl] at bound
          refine Nat.le_trans ?_ (Nat.le_trans bound step)
          exact Nat.le_of_eq (congrArg (fun n => Nat.count _ n + _) (List.countP_cons_of_neg (by simp [isTick])))

omit [DecidableEq J] in
/-- The cursor comes round. -/
theorem exists_turn (positive : 0 < env.maxQueuesPerTick) {queueName : String} (tracked : queueName ∈ env.queueNames)
    (named : queueName ≠ "") (queueCursor : Nat) :
    ∃ i < RoundRobin.rounds env.queueNames.length env.maxQueuesPerTick,
      queueName ∈ batchAt env ((cursorAfter env)^[i] queueCursor) := by
  have member : queueName ∈ Utf16.sort env.queueNames := Utf16.mem_sort.mpr tracked
  have len : (Utf16.sort env.queueNames).length = env.queueNames.length := (Utf16.sort_perm _).length_eq
  obtain ⟨i, early, selected⟩ := exists_selection positive member named queueCursor
  refine ⟨i, len ▸ early, ?_⟩
  exact List.mem_filter.mpr ⟨selected, by simp [named]⟩

/-- So many ticks repair a table: every row left without a terminal status and
    without a job is `unknown`, provided that every such row is of a queue the
    ticks reach and that no page is filled by rows that never settle. -/
theorem stale_rows_repaired {t : JobRunsTable J} {queueCursor : Nat}
    (run : Machine.Run (step env) { table := t, queueCursor } ts s') (finish : s'.AtRest) (page : 0 < env.pageSize)
    (tracked : ∀ r ∈ t.rows, Neglected env r → r.queue ∈ env.queueNames ∧ r.queue ≠ "" ∧ 0 < env.maxQueuesPerTick)
    (steps : ∀ x ∈ ts, Succeeds env x.pre x.act ∧ Reaches env last x.pre x.act)
    (enough : (t.rows.length + 1) * RoundRobin.rounds env.queueNames.length env.maxQueuesPerTick ≤ ticks ts) :
    ∀ r ∈ s'.table.rows, isTerminalStatus r.status = false → (env.bullMq r.queue).jobs r.jobId = none →
      r.status = .unknown := by
  intro r stays unended gone
  by_contra known
  have neglected : Neglected env r := ⟨unended, known, gone⟩
  obtain ⟨bound, before, inv'⟩ := visits_le run page steps ⟨by simp, by simp⟩ stays neglected
  obtain ⟨queue, named, turns⟩ := tracked r before neglected
  have visited := RoundRobin.count_of_within (P := fun c => r.queue ∈ batchAt env c)
    (exists_turn turns queue named) (t.rows.length + 1) queueCursor
  have seen := Nat.count_monotone (fun i => r.queue ∈ batchAt env ((cursorAfter env)^[i] queueCursor)) enough
  have rows : (settlingRows env last r.queue t).length ≤ t.rows.length := List.length_filter_le _ _
  rw [patience_idle (inv'.visit finish r.queue), @patience_idle J env last { table := t, queueCursor } r rfl] at bound
  dsimp only at bound
  omega

/-- Of the two queues' jobs BullMQ has only one that is finished; a page is one row. -/
def finishedOne : BullQueue Unit where
  jobs jobId := if jobId = "1" then some { snapshot := mailJob (some 2000), state := "completed" } else none
  keyed id job found := by
    obtain ⟨rfl, ⟨⟩⟩ := Option.ite_none_right_eq_some.mp found
    rfl

def mailAndInvoices : Reconciled Unit where
  bullMq queueName := if queueName = "mail" then finishedOne else {}
  queueNames := ["mail", "invoices"]
  pageSize := 1
  maxQueuesPerTick := 1

theorem mailAndInvoices_formats {queueName jobId : String} {job : BullJob Unit}
    (found : (mailAndInvoices.bullMq queueName).getJob jobId = some job) : (snapshotRun queueName job).isSome := by
  have stored := (Option.filter_eq_some_iff.mp found).1
  simp only [mailAndInvoices] at stored
  split at stored
  · rename_i mail
    obtain ⟨-, ⟨⟩⟩ := Option.ite_none_right_eq_some.mp stored
    exact mail ▸ rfl
  · cases stored

theorem mailAndInvoices_succeeds (s : Reconciliation Unit) (a : ReconcileAction Unit) :
    Succeeds mailAndInvoices s a := by
  cases a with
  | retained queueName _ =>
      intro jobs pages job member
      obtain ⟨-, -, jobId, -, found⟩ := BullQueue.mem_pages pages member
      exact mailAndInvoices_formats found
  | row queueName _ =>
      intro row rest job _ found
      exact mailAndInvoices_formats found
  | _ => trivial

/-- Three rows that are active, the job of the second being the finished one. -/
def threeActive : JobRunsTable Unit :=
  (upsertJobRuns {} [mailRun .active none, { mailRun .active none with jobId := "2" },
    { mailRun .active none with queue := "invoices", jobId := "3" }] .empty).1

/-- One tick, whose page is the given row. -/
def rowTick (names : List String) (row : JobRun Unit) : List (ReconcileAction Unit) :=
  [.tick names, .retained row.queue {}, .missing row.queue [row], .row row.queue {}, .close row.queue]

def invoiceRow (status : JobStatus) : JobRun Unit :=
  { excluded {} 0 { mailRun .active none with queue := "invoices", jobId := "3" } with status }

def secondRow (status : JobStatus) : JobRun Unit :=
  { excluded {} 2 { mailRun .active none with jobId := "2" } with status }

/-- The first page of `mail` is its other row. -/
def eightTicks : List (ReconcileAction Unit) :=
  [invoiceRow .active, excluded {} 1 (mailRun .active none), invoiceRow .unknown, secondRow .active,
    invoiceRow .unknown, secondRow .unknown, invoiceRow .unknown, secondRow .unknown].flatMap
      (rowTick ["invoices", "mail"])

/-- The page has room for the rows that never settle. -/
def hasRoom (s : Reconciliation Unit) : ReconcileAction Unit → Bool
  | .missing queueName _ =>
      (s.table.rows.filter fun r => isStale queueName r && !settles mailAndInvoices {} r).length ≤ 1
  | _ => true

/-- No retention is configured. -/
def KeepsAll : ReconcileAction Unit → Prop
  | .row _ ctx => getRetentionCutoff ctx = none
  | _ => True

theorem reaches_of_room {s : Reconciliation Unit} {a : ReconcileAction Unit} (room : hasRoom s a = true)
    (all : KeepsAll a) : Reaches mailAndInvoices {} s a := by
  cases a with
  | missing queueName returned => exact fun _ => of_decide_eq_true room
  | row queueName ctx => exact fun run _ => by rw [show getRetentionCutoff ctx = none from all]; rfl
  | _ => trivial

theorem eightTicks_performed :
    (Machine.perform (step mailAndInvoices) { table := threeActive } eightTicks).any (fun r =>
      ticks r.1 = 8 && r.1.all (fun x => hasRoom x.pre x.act) && decide r.2.AtRest &&
        r.2.table.rows.map (fun row => (row.jobId, row.status)) =
          [("3", .unknown), ("1", .completed), ("2", .unknown)]) = true := by
  decide +kernel

theorem stale_rows_repaired_mail :
    ∃ ts s', Machine.Run (step mailAndInvoices) { table := threeActive } ts s' ∧ ticks ts = 8 ∧
      s'.table.rows.map (fun row => (row.jobId, row.status)) =
        [("3", .unknown), ("1", .completed), ("2", .unknown)] ∧
      ∀ r ∈ s'.table.rows, isTerminalStatus r.status = false → (mailAndInvoices.bullMq r.queue).jobs r.jobId = none →
        r.status = .unknown := by
  cases performed : Machine.perform (step mailAndInvoices) { table := threeActive } eightTicks with
  | none => exact absurd eightTicks_performed (by rw [performed]; exact Bool.false_ne_true)
  | some r =>
      have read := eightTicks_performed
      have acts := Machine.perform_acts performed
      have run := Machine.perform_run performed
      simp only [performed, Option.any_some, Bool.and_eq_true, decide_eq_true_eq, List.all_eq_true] at read
      obtain ⟨⟨⟨count, room⟩, finish⟩, rows⟩ := read
      have all : ∀ a ∈ eightTicks, KeepsAll a := by
        simp [eightTicks, rowTick, KeepsAll, getRetentionCutoff, truthyNumber]
      rw [← acts, List.forall_mem_map] at all
      have tracked : ∀ r ∈ threeActive.rows, r.queue ∈ mailAndInvoices.queueNames ∧ r.queue ≠ "" ∧
          0 < mailAndInvoices.maxQueuesPerTick := by decide +kernel
      refine ⟨_, _, run, count, rows, @stale_rows_repaired _ _ _ {} _ _ _ _ run finish (by decide)
        (fun r hr _ => tracked r hr) ?_ ?_⟩
      · exact fun x hx => ⟨mailAndInvoices_succeeds _ _, reaches_of_room (room x hx) (all x hx)⟩
      · rw [count]
        decide

/-- BullMQ has removed every job of the only queue; a page is one row. -/
def mailOnly : Reconciled Unit where
  bullMq := fun _ => {}
  queueNames := ["mail"]
  pageSize := 1
  maxQueuesPerTick := 1

theorem mailOnly_succeeds (s : Reconciliation Unit) (a : ReconcileAction Unit) : Succeeds mailOnly s a := by
  cases a with
  | retained queueName _ =>
      intro jobs pages job member
      obtain ⟨-, -, jobId, -, found⟩ := BullQueue.mem_pages pages member
      exact absurd found (by simp [mailOnly, BullQueue.getJob])
  | row queueName _ =>
      intro row rest job _ found
      exact absurd found (by simp [mailOnly, BullQueue.getJob])
  | _ => trivial

def activeRow : JobRun Unit := excluded {} 0 (mailRun .active none)

/-- Two rows without a job, one of them known to have none. -/
def knownFirst : JobRunsTable Unit :=
  ((upsertJobRuns {} [mailRun .active none, { mailRun .active none with jobId := "2" }] .empty).1).markUnknown 1

def unknownRow : JobRun Unit :=
  { excluded {} 1 { mailRun .active none with jobId := "2" } with status := .unknown }

/-- The state after a tick whose page was the row that is unknown already. -/
def afterTick : Reconciliation Unit :=
  ((Machine.perform (step mailOnly) { table := knownFirst } (rowTick ["mail"] unknownRow)).map (·.2)).getD
    { table := knownFirst }

/-- Such a tick can be repeated for ever and changes no row. -/
theorem mailTick_again (n : Nat) :
    ∃ ts, Machine.Run (step mailOnly) { table := knownFirst } ts afterTick ∧ ticks ts = n + 1 := by
  have first : Machine.perform (step mailOnly) { table := knownFirst } (rowTick ["mail"] unknownRow) =
      some (_, afterTick) := rfl
  have again : Machine.perform (step mailOnly) afterTick (rowTick ["mail"] unknownRow) = some (_, afterTick) := rfl
  induction n with
  | zero => exact ⟨_, Machine.perform_run first, rfl⟩
  | succ n ih =>
      obtain ⟨ts, run, count⟩ := ih
      refine ⟨_, run.append (Machine.perform_run again), ?_⟩
      rw [ticks, List.countP_append]
      exact congrArg (· + 1) count

/-- No number of ticks is enough for all tables of a size: with a page of one
    row, the active row is never looked at. -/
theorem full_page_starves_row :
    ¬ ∃ ticksNeeded : Nat → Nat → Nat → Nat → Nat,
      ∀ (env : Reconciled Unit) (t : JobRunsTable Unit) (queueCursor : Nat) (s' : Reconciliation Unit)
        (ts : List (Machine.Transition (Reconciliation Unit) (ReconcileAction Unit))),
        Machine.Run (step env) { table := t, queueCursor } ts s' → s'.AtRest → 0 < env.pageSize →
        0 < env.maxQueuesPerTick → (∀ x ∈ ts, Succeeds env x.pre x.act) →
        ticksNeeded t.rows.length env.queueNames.length env.pageSize env.maxQueuesPerTick ≤ ticks ts →
        ∀ r ∈ s'.table.rows, isTerminalStatus r.status = false → (env.bullMq r.queue).jobs r.jobId = none →
          r.status = .unknown := by
  intro enough
  obtain ⟨ticksNeeded, repaired⟩ := enough
  obtain ⟨ts, run, count⟩ := mailTick_again (ticksNeeded 2 1 1 1)
  have marked := repaired mailOnly knownFirst 0 _ ts run (by decide) (by decide) (by decide)
    (fun x _ => mailOnly_succeeds _ _) (count ▸ Nat.le_succ _) activeRow (by decide) (by decide) rfl
  exact absurd marked (by decide)

end Reconciliation

end BetterBullBoard
