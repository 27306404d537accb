import Mathlib.Algebra.Order.Ring.Nat
import BetterBullBoard.Lib.JsMap
import BetterBullBoard.Job.Format

/-! # What BullMQ answers

The queues in Redis as the periodic tasks read them: the ids of the retained
jobs, one list for each type, and the jobs themselves by id. An id can be listed
without a job; `getJobs` then returns `undefined` in its place.
-/

namespace BetterBullBoard

variable {J : Type}

inductive JobType where
  | waiting | active | delayed | prioritized | waitingChildren
  deriving Repr, DecidableEq

def jobTypes : List JobType := [.waiting, .active, .delayed, .prioritized, .waitingChildren]

/-- A job with the answer of its `getState`. -/
structure BullJob (J : Type) where
  snapshot : JobSnapshot J
  processedBy : Option String := none
  state : String

structure BullQueue (J : Type) where
  lists : JobType → List String := fun _ => []
  jobs : String → Option (BullJob J) := fun _ => none
  keyed : ∀ id job, jobs id = some job → job.snapshot.id = some id := by simp

def isBullMqJob (job : BullJob J) : Bool := (truthyString job.snapshot.id).isSome

/-- The row of a job. -/
def snapshotRun (queueName : String) (job : BullJob J) : Option (JobRunInsert J) :=
  formatJobRun job.snapshot queueName job.processedBy .undefined (some .snapshot) (some job.state)

namespace BullQueue

variable (queue : BullQueue J)

/-- The ids at these positions of each type's own list, without repetitions. -/
def getJobs (types : List JobType) (start stop : Nat) : List (Option (BullJob J)) :=
  (JsMap.ofEntries ((types.flatMap fun type => ((queue.lists type).drop start).take (stop + 1 - start)).map
    fun id => (id, ()))).map fun entry => queue.jobs entry.1

/-- `getJob`, where it answers with a job. -/
def getJob (jobId : String) : Option (BullJob J) := (queue.jobs jobId).filter isBullMqJob

/-- The pages of `reconcileRetainedBullMqJobs` from a position on, if they end
    within so many. -/
def pages (pageSize : Nat) : Nat → Nat → Option (List (BullJob J))
  | 0, _ => none
  | fuel + 1, start =>
      let jobs := queue.getJobs jobTypes start (start + pageSize - 1)
      if jobs.length = 0 then some []
      else
        let page := jobs.filterMap fun job => job.filter isBullMqJob
        if jobs.length < pageSize then some page
        else (pages pageSize fuel (start + pageSize)).map (page ++ ·)

/-- More pages than the lists have ids are never needed. -/
def listed : Nat := (jobTypes.map fun type => (queue.lists type).length).sum

def retainedJobs (pageSize : Nat) : Option (List (BullJob J)) := queue.pages pageSize (queue.listed + 1) 0

/-- The rows of the retained jobs, or none where formatting one of them throws. -/
def retainedRuns (queueName : String) (pageSize : Nat) : Option (List (JobRunInsert J)) :=
  (queue.retainedJobs pageSize).bind fun jobs => jobs.mapM (snapshotRun queueName)

/-- The job of a listed id, if BullMQ still has it. -/
def Retained (job : BullJob J) : Prop :=
  ∃ type ∈ jobTypes, ∃ jobId ∈ queue.lists type, queue.getJob jobId = some job

variable {queue}

theorem getJobs_behind {start : Nat} (behind : queue.listed ≤ start) (stop : Nat) :
    queue.getJobs jobTypes start stop = [] := by
  have short : ∀ type, (queue.lists type).length ≤ start := by
    intro type
    simp only [listed, jobTypes, List.map_cons, List.map_nil, List.sum_cons, List.sum_nil] at behind
    cases type <;> omega
  have nothing : (jobTypes.flatMap fun type => ((queue.lists type).drop start).take (stop + 1 - start)) = [] := by
    apply List.flatMap_eq_nil_iff.mpr
    intro type _
    rw [List.drop_of_length_le (short type), List.take_nil]
  rw [getJobs, nothing]
  rfl

/-- The paging loop ends. -/
theorem pages_end {pageSize : Nat} (positive : 0 < pageSize) {fuel start : Nat}
    (enough : queue.listed ≤ fuel + start) : ∃ jobs, queue.pages pageSize (fuel + 1) start = some jobs := by
  induction fuel generalizing start with
  | zero =>
      rw [Nat.zero_add] at enough
      exact ⟨[], by simp only [pages, getJobs_behind enough, List.length_nil, if_true]⟩
  | succ fuel ih =>
      obtain ⟨jobs, later⟩ := ih (show queue.listed ≤ fuel + (start + pageSize) by omega)
      rw [pages]
      dsimp only
      split
      · exact ⟨_, rfl⟩
      · split
        · exact ⟨_, rfl⟩
        · exact ⟨_, by rw [later]; rfl⟩

theorem exists_retainedJobs {pageSize : Nat} (positive : 0 < pageSize) :
    ∃ jobs, queue.retainedJobs pageSize = some jobs := pages_end positive (Nat.le_refl _)

/-- A job is found under its own id. -/
theorem getJob_id {jobId : String} {job : BullJob J} (found : queue.getJob jobId = some job) :
    truthyString job.snapshot.id = some jobId := by
  obtain ⟨stored, named⟩ := Option.filter_eq_some_iff.mp found
  have id := queue.keyed jobId job stored
  obtain ⟨s, truthy⟩ := Option.isSome_iff_exists.mp named
  rw [id] at truthy ⊢
  rw [truthy, ← (truthyString_eq_some.mp truthy).1]

theorem mem_positions {types : List JobType} {slice : JobType → List String} {entry : String × Unit}
    (h : entry ∈ JsMap.ofEntries ((types.flatMap slice).map fun id => (id, ()))) :
    ∃ type ∈ types, entry.1 ∈ slice type := by
  obtain ⟨id, listed, same⟩ := List.mem_map.mp
    (JsMap.mem_of_get ((JsMap.mem_iff_get (JsMap.nodup_ofEntries _) _ _).mp h))
  obtain rfl := (Prod.mk.inj same).1
  exact List.mem_flatMap.mp listed

/-- What the pages hold is retained. -/
theorem mem_pages {pageSize fuel start : Nat} {jobs : List (BullJob J)}
    (h : queue.pages pageSize fuel start = some jobs) {job : BullJob J} (member : job ∈ jobs) :
    queue.Retained job := by
  induction fuel generalizing start jobs with
  | zero => simp [pages] at h
  | succ fuel ih =>
      have page : ∀ job ∈ (queue.getJobs jobTypes start (start + pageSize - 1)).filterMap fun job =>
          job.filter isBullMqJob, queue.Retained job := by
        intro job hjob
        obtain ⟨answer, hanswer, same⟩ := List.mem_filterMap.mp hjob
        obtain ⟨entry, hentry, rfl⟩ := List.mem_map.mp hanswer
        obtain ⟨type, asked, listed⟩ := mem_positions hentry
        exact ⟨type, asked, entry.1, List.mem_of_mem_drop (List.mem_of_mem_take listed), same⟩
      simp only [pages] at h
      split at h
      · obtain rfl := Option.some.inj h
        simp at member
      · split at h
        · obtain rfl := Option.some.inj h
          exact page job member
        · obtain ⟨rest, later, rfl⟩ := Option.map_eq_some_iff.mp h
          cases List.mem_append.mp member with
          | inl inPage => exact page job inPage
          | inr behind => exact ih later behind

theorem mem_snapshotRuns {queueName : String} {jobs : List (BullJob J)} {runs : List (JobRunInsert J)}
    (h : jobs.mapM (snapshotRun queueName) = some runs) {run : JobRunInsert J} (member : run ∈ runs) :
    ∃ job ∈ jobs, snapshotRun queueName job = some run := by
  induction jobs generalizing runs with
  | nil =>
      obtain rfl := Option.some.inj h
      simp at member
  | cons job jobs ih =>
      rw [List.mapM_cons] at h
      obtain ⟨first, formatted, rest⟩ := Option.bind_eq_some_iff.mp h
      obtain ⟨later, formatted', eq⟩ := Option.bind_eq_some_iff.mp rest
      obtain rfl := Option.some.inj eq
      cases List.mem_cons.mp member with
      | inl same => exact ⟨job, List.mem_cons_self, same ▸ formatted⟩
      | inr behind =>
          obtain ⟨job', hjob, same⟩ := ih formatted' behind
          exact ⟨job', List.mem_cons_of_mem _ hjob, same⟩

theorem snapshotRuns_eq {queueName : String} {jobs : List (BullJob J)} {runs : List (JobRunInsert J)}
    (h : jobs.mapM (snapshotRun queueName) = some runs) : jobs.map (snapshotRun queueName) = runs.map some := by
  induction jobs generalizing runs with
  | nil =>
      obtain rfl := Option.some.inj h
      rfl
  | cons job jobs ih =>
      rw [List.mapM_cons] at h
      obtain ⟨run, formatted, rest⟩ := Option.bind_eq_some_iff.mp h
      obtain ⟨later, formatted', eq⟩ := Option.bind_eq_some_iff.mp rest
      obtain rfl := Option.some.inj eq
      rw [List.map_cons, List.map_cons, formatted, ih formatted']

theorem snapshotRuns_some {queueName : String} {jobs : List (BullJob J)}
    (all : ∀ job ∈ jobs, (snapshotRun queueName job).isSome) :
    ∃ runs, jobs.mapM (snapshotRun queueName) = some runs := by
  induction jobs with
  | nil => exact ⟨[], rfl⟩
  | cons job jobs ih =>
      simp only [List.forall_mem_cons] at all
      obtain ⟨run, formatted⟩ := Option.isSome_iff_exists.mp all.1
      obtain ⟨runs, rest⟩ := ih all.2
      exact ⟨run :: runs, by rw [List.mapM_cons, formatted, rest]; rfl⟩

end BullQueue

end BetterBullBoard
