import BetterBullBoard.Lib.UniqueIndex

/-! # The `job_runs` table

Columns of `schemas/job/schema.ts`. A JSON column is read and compared only as a
whole, so its values are an arbitrary type `J`; `none` is SQL NULL. Timestamps
are whole milliseconds, as `timestamp(3)` stores them. The generated column
`duration_ms` is a function of the others and is not stored again.
-/

namespace BetterBullBoard

inductive JobStatus where
  | active | completed | failed | waiting | delayed | prioritized | waitingChildren | unknown
  deriving Repr, DecidableEq

/-- `isTerminalStatus` of `job-format.ts`. -/
def isTerminalStatus : JobStatus → Bool
  | .completed | .failed => true
  | _ => false

/-- An optional and nullable property: missing, `null`, or present. -/
inductive Nullish (α : Type) where
  | undefined
  | null
  | value (a : α)
  deriving Repr, DecidableEq

/-- What SQL receives when the column has no default. -/
def Nullish.toOption {α : Type} : Nullish α → Option α
  | .value a => some a
  | _ => none

/-- A stored row. -/
structure JobRun (J : Type) where
  id : Nat
  jobId : String
  queue : String
  name : Option String
  status : JobStatus
  attempt : Int
  maxAttempts : Int
  priority : Option Int
  delayMs : Int
  backoff : Option J
  repeatJobKey : Option String
  parentJobId : Option String
  workerId : Option String
  tags : Option (List String)
  data : Option J
  result : Option J
  errorMessage : Option String
  errorStack : Option String
  createdAt : Int
  enqueuedAt : Option Int
  startedAt : Option Int
  finishedAt : Option Int
  deriving Repr, DecidableEq

/-- `JobRunInsert`, the values of one row to insert. Where a column has no
    default, a missing property and `null` both write NULL and are both `none`. -/
structure JobRunInsert (J : Type) where
  workerId : Option String := none
  jobId : String
  queue : String
  status : JobStatus
  attempt : Option Int := none
  maxAttempts : Option Int := none
  priority : Option Int := none
  delayMs : Option Int := none
  backoff : Option J := none
  data : Option J := none
  enqueuedAt : Nullish Int := .undefined
  startedAt : Option Int := none
  finishedAt : Option Int := none
  errorMessage : Option String := none
  errorStack : Option String := none
  name : Option String := none
  parentJobId : Option String := none
  repeatJobKey : Option String := none
  result : Option J := none
  tags : Nullish (List String) := .undefined
  createdAt : Option Int := none
  deriving Repr, DecidableEq

variable {J : Type}

/-- The columns of `ux_job_runs_queue_jobid_enqueuedat`; a NULL enqueue time
    never conflicts. -/
def JobRun.target (r : JobRun J) : Option (String × String × Int) :=
  r.enqueuedAt.map fun moment => (r.queue, r.jobId, moment)

/-- `job_runs` with its primary key and its unique index. Ids are drawn from a
    counter that no row has reached, standing for `uuid_generate_v7()`. -/
structure JobRunsTable (J : Type) where
  rows : List (JobRun J)
  nextId : Nat
  unique : UniqueIndex.Unique JobRun.target rows
  ids : (rows.map (·.id)).Nodup
  fresh : ∀ r ∈ rows, r.id < nextId

namespace JobRunsTable

def empty : JobRunsTable J := ⟨[], 0, .nil, .nil, by simp⟩

theorem eq_of_id (t : JobRunsTable J) {a b : JobRun J} (ha : a ∈ t.rows) (hb : b ∈ t.rows)
    (same : a.id = b.id) : a = b := List.inj_on_of_nodup_map t.ids ha hb same

theorem eq_of_target (t : JobRunsTable J) {a b : JobRun J} (ha : a ∈ t.rows) (hb : b ∈ t.rows)
    {k} (hka : a.target = some k) (hkb : b.target = some k) : a = b :=
  t.unique.eq_of_clash ha hb ⟨by simp [hka], hka.trans hkb.symm⟩

/-- `UPDATE job_runs SET .. WHERE ..` for an assignment that writes neither the
    primary key nor an indexed column. -/
def update (t : JobRunsTable J) (wher : JobRun J → Bool) (set : JobRun J → JobRun J)
    (sameId : ∀ r, (set r).id = r.id) (sameTarget : ∀ r, (set r).target = r.target) :
    JobRunsTable J where
  rows := t.rows.map fun r => if wher r then set r else r
  nextId := t.nextId
  unique := t.unique.map fun r => by split <;> simp [sameTarget]
  ids := by
    have : ((fun r : JobRun J => r.id) ∘ fun r => if wher r then set r else r) = (·.id) := by
      funext r
      simp only [Function.comp_apply]
      split <;> simp [sameId]
    simpa only [List.map_map, this] using t.ids
  fresh := by
    intro r hr
    obtain ⟨old, member, rfl⟩ := List.mem_map.mp hr
    have := t.fresh old member
    split <;> simp [sameId, this]

/-- Every stored row is still there, up to `R`. -/
def Survives (R : JobRun J → JobRun J → Prop) (t t' : JobRunsTable J) : Prop :=
  ∀ r ∈ t.rows, ∃ r' ∈ t'.rows, R r r'

theorem Survives.refl {R : JobRun J → JobRun J → Prop} (reflR : ∀ r, R r r) (t : JobRunsTable J) :
    Survives R t t := fun r hr => ⟨r, hr, reflR r⟩

theorem Survives.trans {R : JobRun J → JobRun J → Prop}
    (transR : ∀ a b c, R a b → R b c → R a c) {t t' t'' : JobRunsTable J}
    (first : Survives R t t') (second : Survives R t' t'') : Survives R t t'' := by
  intro r hr
  obtain ⟨r', hr', h⟩ := first r hr
  obtain ⟨r'', hr'', h'⟩ := second r' hr'
  exact ⟨r'', hr'', transR _ _ _ h h'⟩

theorem update_survives {R : JobRun J → JobRun J → Prop} (t : JobRunsTable J) {wher set sameId sameTarget}
    (kept : ∀ r ∈ t.rows, wher r = false → R r r) (changed : ∀ r ∈ t.rows, wher r = true → R r (set r)) :
    Survives R t (t.update wher set sameId sameTarget) := by
  intro r hr
  refine ⟨_, List.mem_map.mpr ⟨r, hr, rfl⟩, ?_⟩
  cases h : wher r with
  | false => simpa [h] using kept r hr h
  | true => simpa [h] using changed r hr h

end JobRunsTable

end BetterBullBoard
