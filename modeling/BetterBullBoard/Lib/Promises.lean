import BetterBullBoard.Lib.Endless
import Mathlib.Logic.Function.Basic
import Mathlib.Data.List.Nodup

/-! # Promises

A promise settles once. Until then it may wait for another promise, with the
handlers to call on that promise's outcome, and each promise that has what it
waits for has a job in one queue. Here a promise is known by its name, and jobs and
reactions by the promise they are for.
-/

inductive PromiseOutcome (ν : Type) where
  | fulfilled (value : ν)
  | rejected (reason : ν)
  deriving Repr, DecidableEq

/-- Where the outcome of a pending promise is to come from. -/
inductive Source (ι κ : Type) where
  /-- From code that holds its `resolve` and `reject`, or that has not made it yet. -/
  | code
  /-- `promise.then(onFulfilled, onRejected)`; without a handler the outcome is passed on. -/
  | reaction (promise : ι) (onFulfilled onRejected : Option κ)
  /-- It was resolved with `promise`, and is yet to subscribe to it. -/
  | adoption (promise : ι)
  deriving Repr, DecidableEq

inductive PromiseState (ι κ ν : Type) where
  | pending (source : Source ι κ)
  | settled (outcome : PromiseOutcome ν)
  deriving Repr, DecidableEq

namespace PromiseState

variable {ι κ ν : Type}

def outcome : PromiseState ι κ ν → Option (PromiseOutcome ν)
  | .pending _ => none
  | .settled o => some o

/-- The promise whose outcome it waits for. -/
def awaits : PromiseState ι κ ν → Option ι
  | .pending (.reaction p _ _) => some p
  | _ => none

def adopting : PromiseState ι κ ν → Bool
  | .pending (.adoption _) => true
  | _ => false

theorem awaits_eq_some {st : PromiseState ι κ ν} {p : ι} :
    st.awaits = some p ↔ ∃ onFulfilled onRejected, st = .pending (.reaction p onFulfilled onRejected) := by
  unfold awaits
  split <;> simp_all

theorem adopting_eq_true {st : PromiseState ι κ ν} : st.adopting = true ↔ ∃ p, st = .pending (.adoption p) := by
  unfold adopting
  split <;> simp_all

/-- A promise has one place its outcome comes from. -/
@[grind →]
theorem not_adopting {st : PromiseState ι κ ν} {p : ι} (waits : st.awaits = some p) : st.adopting = false := by
  obtain ⟨_, _, rfl⟩ := awaits_eq_some.mp waits
  rfl

@[grind →]
theorem pending_of_awaits {st : PromiseState ι κ ν} {p : ι} (waits : st.awaits = some p) : st.outcome = none := by
  obtain ⟨_, _, rfl⟩ := awaits_eq_some.mp waits
  rfl

@[grind →]
theorem pending_of_adopting {st : PromiseState ι κ ν} (adopts : st.adopting = true) : st.outcome = none := by
  obtain ⟨_, rfl⟩ := adopting_eq_true.mp adopts
  rfl

@[simp, grind =] theorem awaits_code : (.pending .code : PromiseState ι κ ν).awaits = none := rfl
@[simp, grind =] theorem adopting_code : (.pending .code : PromiseState ι κ ν).adopting = false := rfl
@[simp, grind =] theorem awaits_settled (o : PromiseOutcome ν) : (.settled o : PromiseState ι κ ν).awaits = none := rfl

@[simp, grind =]
theorem adopting_settled (o : PromiseOutcome ν) : (.settled o : PromiseState ι κ ν).adopting = false := rfl

@[simp, grind =]
theorem outcome_settled (o : PromiseOutcome ν) : (.settled o : PromiseState ι κ ν).outcome = some o := rfl

@[simp, grind =]
theorem outcome_pending (source : Source ι κ) : (.pending source : PromiseState ι κ ν).outcome = none := rfl

end PromiseState

/-- Has a job to run, the promises being in these states. -/
def Due {ι κ ν : Type} (state : ι → PromiseState ι κ ν) (d : ι) : Prop :=
  (state d).adopting = true ∨ ∃ p, (state d).awaits = some p ∧ (state p).outcome ≠ none

structure Promises (ι κ ν : Type) where
  state : ι → PromiseState ι κ ν
  /-- Who waits for a promise, in the order of the calls of `then`. -/
  reactions : ι → List ι
  jobs : List ι
  nodup_jobs : jobs.Nodup
  nodup_reactions : ∀ p, (reactions p).Nodup
  mem_jobs : ∀ d, d ∈ jobs ↔ Due state d
  mem_reactions : ∀ p d, d ∈ reactions p ↔ (state d).awaits = some p ∧ (state p).outcome = none

namespace Promises

variable {ι κ ν : Type}

/-- These promises have settled, and no other has been made. -/
def start (settled : ι → Option (PromiseOutcome ν)) : Promises ι κ ν where
  state p := (settled p).elim (.pending .code) .settled
  reactions _ := []
  jobs := []
  nodup_jobs := List.nodup_nil
  nodup_reactions _ := List.nodup_nil
  mem_jobs d := by cases found : settled d <;> simp [Due, found, PromiseState.adopting, PromiseState.awaits]
  mem_reactions p d := by cases settled d <;> simp [PromiseState.awaits]

section Fields

variable {s : Promises ι κ ν} {d p : ι} {o : PromiseOutcome ν} {onFulfilled onRejected : Option κ}

/-- A promise that waits for nothing has no job. -/
theorem not_mem_jobs (given : s.state p = .pending .code) : p ∉ s.jobs := by
  simp [s.mem_jobs, Due, given, PromiseState.adopting, PromiseState.awaits]

theorem not_mem_reactions (given : s.state d = .pending .code) (p : ι) : d ∉ s.reactions p := by
  simp [s.mem_reactions, given, PromiseState.awaits]

theorem nodup_jobs_settle : (s.jobs ++ s.reactions p).Nodup := by
  refine List.nodup_append'.mpr ⟨s.nodup_jobs, s.nodup_reactions p, ?_⟩
  intro d due waits
  rw [s.mem_jobs] at due
  rw [s.mem_reactions] at waits
  grind [Due]

theorem nodup_jobs_due (given : s.state d = .pending .code) : (s.jobs ++ [d]).Nodup :=
  List.nodup_append'.mpr ⟨s.nodup_jobs, List.nodup_singleton d, by simpa using not_mem_jobs given⟩

variable [DecidableEq ι]

theorem mem_jobs_settle (given : s.state p = .pending .code) (d : ι) :
    d ∈ s.jobs ++ s.reactions p ↔ Due (Function.update s.state p (.settled o)) d := by
  rw [List.mem_append, s.mem_jobs, s.mem_reactions]
  by_cases same : d = p
  · subst same
    simp [Due, given]
  · simp only [Due, Function.update_of_ne same]
    grind [Function.update_apply]

theorem mem_reactions_settle (given : s.state p = .pending .code) (q d : ι) :
    d ∈ Function.update s.reactions p [] q ↔
      (Function.update s.state p (.settled o) d).awaits = some q ∧
        (Function.update s.state p (.settled o) q).outcome = none := by
  have waits := s.mem_reactions q d
  grind [Function.update_apply]

/-- A promise that nothing else resolves waits for a pending one. -/
theorem mem_jobs_wait (given : s.state d = .pending .code) (waits : (s.state p).outcome = none) (q : ι) :
    q ∈ s.jobs ↔ Due (Function.update s.state d (.pending (.reaction p onFulfilled onRejected))) q := by
  have due := s.mem_jobs q
  grind [Due, Function.update_apply, PromiseState.awaits, PromiseState.adopting]

theorem mem_reactions_wait (given : s.state d = .pending .code) (waits : (s.state p).outcome = none) (r q : ι) :
    q ∈ Function.update s.reactions p (s.reactions p ++ [d]) r ↔
      (Function.update s.state d (.pending (.reaction p onFulfilled onRejected)) q).awaits = some r ∧
        (Function.update s.state d (.pending (.reaction p onFulfilled onRejected)) r).outcome = none := by
  have waiting := s.mem_reactions r q
  grind [Function.update_apply, PromiseState.awaits]

/-- A promise with a job of its own: it waits for a settled one, or adopts one. -/
theorem mem_jobs_due {state : PromiseState ι κ ν} (given : s.state d = .pending .code)
    (due : state.adopting = true ∨ ∃ p, state.awaits = some p ∧ (s.state p).outcome ≠ none) (q : ι) :
    q ∈ s.jobs ++ [d] ↔ Due (Function.update s.state d state) q := by
  have before := s.mem_jobs q
  grind [Due, Function.update_apply]

theorem mem_reactions_due {state : PromiseState ι κ ν} (given : s.state d = .pending .code)
    (due : state.adopting = true ∨ ∃ p, state.awaits = some p ∧ (s.state p).outcome ≠ none) (r q : ι) :
    q ∈ s.reactions r ↔
      (Function.update s.state d state q).awaits = some r ∧ (Function.update s.state d state r).outcome = none := by
  have waiting := s.mem_reactions r q
  grind [Function.update_apply]

theorem nodup_reactions_wait (given : s.state d = .pending .code) (q : ι) :
    (Function.update s.reactions p (s.reactions p ++ [d]) q).Nodup := by
  rw [Function.update_apply]
  split
  · exact List.nodup_append'.mpr ⟨s.nodup_reactions p, List.nodup_singleton d, by simpa using not_mem_reactions given p⟩
  · exact s.nodup_reactions q

/-- The promise whose job comes first waits for nothing any more. -/
theorem mem_jobs_take {rest : List ι} (first : s.jobs = d :: rest) (q : ι) :
    q ∈ rest ↔ Due (Function.update s.state d (.pending .code)) q := by
  have due := s.mem_jobs q
  have distinct := s.nodup_jobs
  have head := s.mem_jobs d
  rw [first, List.nodup_cons] at distinct
  rw [first, List.mem_cons] at due head
  grind [Due, Function.update_apply]

theorem mem_reactions_take {rest : List ι} (first : s.jobs = d :: rest) (r q : ι) :
    q ∈ s.reactions r ↔ (Function.update s.state d (.pending .code) q).awaits = some r ∧
      (Function.update s.state d (.pending .code) r).outcome = none := by
  have waiting := s.mem_reactions r q
  have head := s.mem_jobs d
  rw [first, List.mem_cons] at head
  grind [Due, Function.update_apply]

end Fields

/-- What was to come stays as it was, and further jobs queue up behind it. -/
structure Grows (s s' : Promises ι κ ν) : Prop where
  state : ∀ q, s.state q ≠ .pending .code → s'.state q = s.state q
  jobs : ∃ added, s'.jobs = s.jobs ++ added

theorem Grows.refl (s : Promises ι κ ν) : Grows s s := ⟨fun _ _ => rfl, [], (List.append_nil _).symm⟩

theorem Grows.trans {s s' s'' : Promises ι κ ν} (first : Grows s s') (second : Grows s' s'') : Grows s s'' := by
  refine ⟨fun q given => ?_, ?_⟩
  · rw [second.state q (by rwa [first.state q given]), first.state q given]
  · obtain ⟨added, jobs⟩ := first.jobs
    obtain ⟨added', jobs'⟩ := second.jobs
    exact ⟨added ++ added', by rw [jobs', jobs, List.append_assoc]⟩

variable [DecidableEq ι]

/-- `resolve` or `reject`; they do nothing to a promise that is resolved already. -/
def settle (p : ι) (o : PromiseOutcome ν) (s : Promises ι κ ν) : Promises ι κ ν :=
  match given : s.state p with
  | .pending .code =>
      { state := Function.update s.state p (.settled o)
        reactions := Function.update s.reactions p []
        jobs := s.jobs ++ s.reactions p
        nodup_jobs := nodup_jobs_settle
        nodup_reactions := fun q => by
          rw [Function.update_apply]
          split
          · exact List.nodup_nil
          · exact s.nodup_reactions q
        mem_jobs := mem_jobs_settle given
        mem_reactions := mem_reactions_settle given }
  | _ => s

/-- `d` is the promise that `p.then(onFulfilled, onRejected)` makes. -/
def then_ (d p : ι) (onFulfilled onRejected : Option κ) (s : Promises ι κ ν) : Promises ι κ ν :=
  match given : s.state d, waits : s.state p with
  | .pending .code, .pending _ =>
      { s with
        state := Function.update s.state d (.pending (.reaction p onFulfilled onRejected))
        reactions := Function.update s.reactions p (s.reactions p ++ [d])
        nodup_reactions := nodup_reactions_wait given
        mem_jobs := mem_jobs_wait given (by rw [waits]; rfl)
        mem_reactions := mem_reactions_wait given (by rw [waits]; rfl) }
  | .pending .code, .settled _ =>
      { s with
        state := Function.update s.state d (.pending (.reaction p onFulfilled onRejected))
        jobs := s.jobs ++ [d]
        nodup_jobs := nodup_jobs_due given
        mem_jobs := mem_jobs_due given (.inr ⟨p, rfl, by simp [waits]⟩)
        mem_reactions := mem_reactions_due given (.inr ⟨p, rfl, by simp [waits]⟩) }
  | _, _ => s

/-- `resolve` with the promise `p`. -/
def adopt (d p : ι) (s : Promises ι κ ν) : Promises ι κ ν :=
  match given : s.state d with
  | .pending .code =>
      { s with
        state := Function.update s.state d (.pending (.adoption p))
        jobs := s.jobs ++ [d]
        nodup_jobs := nodup_jobs_due given
        mem_jobs := mem_jobs_due given (.inl rfl)
        mem_reactions := mem_reactions_due given (.inl rfl) }
  | _ => s

/-- The first job is taken from the queue. -/
def take (s : Promises ι κ ν) : Option (ι × Promises ι κ ν) :=
  match first : s.jobs with
  | [] => none
  | d :: rest =>
      some (d, { s with
        state := Function.update s.state d (.pending .code)
        jobs := rest
        nodup_jobs := (List.nodup_cons.mp (first ▸ s.nodup_jobs)).2
        mem_jobs := mem_jobs_take first
        mem_reactions := mem_reactions_take first })

/-- The handler called on this outcome. -/
def handler (onFulfilled onRejected : Option κ) : PromiseOutcome ν → Option κ
  | .fulfilled _ => onFulfilled
  | .rejected _ => onRejected

/-- The first job is run, up to the call of a handler: what the handler returns or
    throws settles the promise with it. -/
def runJob (s : Promises ι κ ν) : Option (Option (κ × ι) × Promises ι κ ν) :=
  match s.take with
  | none => none
  | some (d, s') =>
      match s.state d with
      | .pending (.adoption p) => some (none, s'.then_ d p none none)
      | .pending (.reaction p onFulfilled onRejected) =>
          match s.state p with
          | .settled o =>
              match handler onFulfilled onRejected o with
              | some callback => some (some (callback, d), s')
              | none => some (none, s'.settle d o)
          | .pending _ => none
      | _ => none

section Operations

variable {s s' : Promises ι κ ν} {d p : ι} {o : PromiseOutcome ν} {onFulfilled onRejected : Option κ}

theorem state_settle (given : s.state p = .pending .code) :
    (s.settle p o).state = Function.update s.state p (.settled o) := by
  unfold settle
  split
  · rfl
  · exact absurd given ‹_›

theorem state_then (given : s.state d = .pending .code) :
    (s.then_ d p onFulfilled onRejected).state =
      Function.update s.state d (.pending (.reaction p onFulfilled onRejected)) := by
  unfold then_
  split
  · rfl
  · rfl
  · rename_i pending settled
    cases waits : s.state p with
    | pending source => exact (pending source given waits).elim
    | settled o => exact (settled o given waits).elim

theorem state_adopt (given : s.state d = .pending .code) :
    (s.adopt d p).state = Function.update s.state d (.pending (.adoption p)) := by
  unfold adopt
  split
  · rfl
  · exact absurd given ‹_›

theorem grows_settle : Grows s (s.settle p o) := by
  unfold settle
  split
  · exact ⟨fun q made => Function.update_of_ne (by grind) _ _, _, rfl⟩
  · exact .refl s

theorem grows_then : Grows s (s.then_ d p onFulfilled onRejected) := by
  unfold then_
  split
  · exact ⟨fun q made => Function.update_of_ne (by grind) _ _, [], (List.append_nil _).symm⟩
  · exact ⟨fun q made => Function.update_of_ne (by grind) _ _, _, rfl⟩
  · exact .refl s

theorem grows_adopt : Grows s (s.adopt d p) := by
  unfold adopt
  split
  · exact ⟨fun q made => Function.update_of_ne (by grind) _ _, _, rfl⟩
  · exact .refl s

theorem take_cons {rest : List ι} (first : s.jobs = d :: rest) :
    ∃ s', s.take = some (d, s') ∧ s'.state = Function.update s.state d (.pending .code) ∧ s'.jobs = rest := by
  unfold take
  split
  · grind
  · rename_i head tail jobs
    obtain ⟨rfl, rfl⟩ := List.cons.inj (jobs.symm.trans first)
    exact ⟨_, rfl, rfl, rfl⟩

theorem take_eq_some (taken : s.take = some (d, s')) :
    s.jobs = d :: s'.jobs ∧ s'.state = Function.update s.state d (.pending .code) := by
  cases jobs : s.jobs with
  | nil =>
      unfold take at taken
      grind
  | cons head rest =>
      obtain ⟨_, same, state, rfl⟩ := take_cons jobs
      obtain ⟨rfl, rfl⟩ := Prod.mk.inj (Option.some.inj (same.symm.trans taken))
      exact ⟨rfl, state⟩

/-- The queue never gets stuck: what the first job waits for has settled. -/
theorem runJob_isSome (queued : s.jobs ≠ []) : s.runJob.isSome = true := by
  obtain ⟨d, rest, jobs⟩ := List.exists_cons_of_ne_nil queued
  obtain ⟨s', taken, -, -⟩ := take_cons jobs
  have due : Due s.state d := (s.mem_jobs d).mp (jobs ▸ List.mem_cons_self)
  rw [runJob, taken]
  obtain adopts | ⟨p, waits, settled⟩ := due
  · obtain ⟨p, state⟩ := PromiseState.adopting_eq_true.mp adopts
    simp [state]
  · obtain ⟨onFulfilled, onRejected, state⟩ := PromiseState.awaits_eq_some.mp waits
    cases outcome : s.state p with
    | pending source => simp [outcome] at settled
    | settled o =>
        simp only [state, outcome]
        cases handler onFulfilled onRejected o <;> rfl

/-- What a job comes to: it subscribes its promise to the one adopted, passes on the
    outcome waited for, or calls a handler on it. -/
theorem runJob_cases {called : Option (κ × ι)} (ran : s.runJob = some (called, s')) :
    ∃ d s₀, s.take = some (d, s₀) ∧ Grows s₀ s' ∧
      ((∃ p, s.state d = .pending (.adoption p) ∧ called = none ∧
          s'.state = Function.update s.state d (.pending (.reaction p none none))) ∨
        ∃ p onFulfilled onRejected o, s.state d = .pending (.reaction p onFulfilled onRejected) ∧
          s.state p = .settled o ∧
          ((handler onFulfilled onRejected o = none ∧ called = none ∧
              s'.state = Function.update s.state d (.settled o)) ∨
            ∃ callback, handler onFulfilled onRejected o = some callback ∧ called = some (callback, d) ∧
              s'.state = Function.update s.state d (.pending .code))) := by
  unfold runJob at ran
  cases taken : s.take with
  | none => simp [taken] at ran
  | some first =>
      obtain ⟨d, s₀⟩ := first
      obtain ⟨-, free⟩ := take_eq_some taken
      have given : s₀.state d = .pending .code := by rw [free, Function.update_self]
      rw [taken] at ran
      dsimp only at ran
      refine ⟨d, s₀, rfl, ?_⟩
      split at ran
      · rename_i p state
        obtain ⟨rfl, rfl⟩ := Prod.mk.inj (Option.some.inj ran)
        exact ⟨grows_then, .inl ⟨p, state, rfl, by rw [state_then given, free, Function.update_idem]⟩⟩
      · rename_i p onFulfilled onRejected state
        split at ran
        · rename_i o settled
          split at ran
          · rename_i callback handles
            obtain ⟨rfl, rfl⟩ := Prod.mk.inj (Option.some.inj ran)
            exact ⟨.refl s₀, .inr ⟨p, _, _, o, state, settled, .inr ⟨callback, handles, rfl, free⟩⟩⟩
          · rename_i passes
            obtain ⟨rfl, rfl⟩ := Prod.mk.inj (Option.some.inj ran)
            exact ⟨grows_settle, .inr ⟨p, _, _, o, state, settled,
              .inl ⟨passes, rfl, by rw [state_settle given, free, Function.update_idem]⟩⟩⟩
        · cases ran
      · cases ran

end Operations

/-! ## Endless runs -/

section Endless

open Machine

variable {σ α : Type} {step : σ → α → Option σ} {init : σ} {promises : σ → Promises ι κ ν} {isJob : α → Prop}

/-- Code only makes and resolves promises, and a job is the first of the queue. -/
structure Runs (step : σ → α → Option σ) (promises : σ → Promises ι κ ν) (isJob : α → Prop) : Prop where
  code : ∀ {s a s'}, step s a = some s' → ¬ isJob a → Grows (promises s) (promises s')
  job : ∀ {s a s'}, step s a = some s' → isJob a →
    ∃ d s₀, (promises s).take = some (d, s₀) ∧ Grows s₀ (promises s')

/-- The action runs the job of `d`. -/
def RunsJob (promises : σ → Promises ι κ ν) (isJob : α → Prop) (d : ι) (s : σ) (a : α) : Prop :=
  isJob a ∧ (promises s).jobs.head? = some d

/-- No job is left in the queue for ever. -/
def JobsRun (promises : σ → Promises ι κ ν) (isJob : α → Prop) (run : Endless step init) : Prop :=
  ∀ n, (promises (run.state n)).jobs ≠ [] → ∃ m, n ≤ m ∧ ∃ a, run.act m = some a ∧ isJob a

/-- What a promise waits for changes only with its job. -/
theorem Runs.kept (runs : Runs step promises isJob) {s s' : σ} {a : α} {d : ι} (enabled : step s a = some s')
    (made : (promises s).state d ≠ .pending .code) (other : ¬ RunsJob promises isJob d s a) :
    (promises s').state d = (promises s).state d := by
  by_cases job : isJob a
  · obtain ⟨head, s₀, taken, grows⟩ := runs.job enabled job
    obtain ⟨jobs, state⟩ := take_eq_some taken
    have apart : d ≠ head := by
      rintro rfl
      exact other ⟨job, by rw [jobs]; rfl⟩
    have same : s₀.state d = (promises s).state d := by rw [state, Function.update_of_ne apart]
    rw [grows.state d (by rwa [same]), same]
  · exact (runs.code enabled job).state d made

/-- Until the next job, the queue keeps what is in it, and so do its promises. -/
theorem Runs.next_job (runs : Runs step promises isJob) (run : Endless step init)
    (fair : JobsRun promises isJob run) {n : Nat} {d : ι} (due : d ∈ (promises (run.state n)).jobs) :
    ∃ m, n ≤ m ∧ (∃ added, (promises (run.state m)).jobs = (promises (run.state n)).jobs ++ added) ∧
      (promises (run.state m)).state d = (promises (run.state n)).state d ∧ ∃ a, run.act m = some a ∧ isJob a := by
  have made : (promises (run.state n)).state d ≠ .pending .code := fun given => not_mem_jobs given due
  obtain ⟨m, later, ⟨queued, state⟩, job⟩ := run.first (A := fun _ a => isJob a)
    (P := fun s => (∃ added, (promises s).jobs = (promises (run.state n)).jobs ++ added) ∧
      (promises s).state d = (promises (run.state n)).state d)
    (fun k a acts code holds => by
      obtain ⟨⟨added, jobs⟩, state⟩ := holds
      have grows := runs.code (run.next_some acts) code
      obtain ⟨more, jobs'⟩ := grows.jobs
      refine ⟨⟨added ++ more, by rw [jobs', jobs, List.append_assoc]⟩, ?_⟩
      rw [grows.state d (by rwa [state]), state])
    ⟨⟨[], (List.append_nil _).symm⟩, rfl⟩ (fair n (List.ne_nil_of_mem due))
  exact ⟨m, later, queued, state, job⟩

/-- When jobs keep being run, every job is: the one at the head is run, and the
    others move up. -/
theorem Runs.job_runs (runs : Runs step promises isJob) (run : Endless step init)
    (fair : JobsRun promises isJob run) {n : Nat} {d : ι} (due : d ∈ (promises (run.state n)).jobs) :
    ∃ m, n ≤ m ∧ (promises (run.state m)).state d = (promises (run.state n)).state d ∧
      ∃ a, run.act m = some a ∧ RunsJob promises isJob d (run.state m) a := by
  obtain ⟨before, rest, jobs⟩ := List.append_of_mem due
  induction before generalizing n rest with
  | nil =>
      obtain ⟨m, later, ⟨added, queued⟩, state, a, acts, job⟩ := runs.next_job run fair due
      exact ⟨m, later, state, a, acts, job, by rw [queued, jobs]; rfl⟩
  | cons head before ih =>
      obtain ⟨m, later, ⟨added, queued⟩, state, a, acts, job⟩ := runs.next_job run fair due
      obtain ⟨head', s₀, taken, grows⟩ := runs.job (run.next_some acts) job
      obtain ⟨taken, free⟩ := take_eq_some taken
      obtain ⟨more, jobs'⟩ := grows.jobs
      have moved : head' :: s₀.jobs = head :: (before ++ d :: (rest ++ added)) := by
        rw [← taken, queued, jobs, List.cons_append, List.cons_append, List.append_assoc, List.cons_append]
      obtain ⟨rfl, left⟩ := List.cons.inj moved
      have still : (promises (run.state (m + 1))).jobs = before ++ d :: (rest ++ added ++ more) := by
        rw [jobs', left, List.append_assoc, List.cons_append]
      have apart : d ≠ head' := by
        rintro rfl
        have distinct := (promises (run.state m)).nodup_jobs
        rw [taken, List.nodup_cons, left] at distinct
        exact distinct.1 (List.mem_append_right before List.mem_cons_self)
      have queuedNext : d ∈ (promises (run.state (m + 1))).jobs := by
        rw [still]
        exact List.mem_append_right before List.mem_cons_self
      obtain ⟨k, after, state', runsJob⟩ := ih queuedNext _ still
      refine ⟨k, by omega, ?_, runsJob⟩
      rw [state', runs.kept (run.next_some acts) ?_ ?_, state]
      · rw [state]
        exact fun given => not_mem_jobs given due
      · rintro ⟨-, first⟩
        rw [taken] at first
        exact apart (Option.some.inj first).symm

/-- A handler is called, or the outcome is passed on, once the promise waited for
    has settled. -/
theorem Runs.reaction_runs (runs : Runs step promises isJob) (run : Endless step init)
    (fair : JobsRun promises isJob run) {n m : Nat} {d p : ι} {onFulfilled onRejected : Option κ} {o : PromiseOutcome ν}
    (waits : (promises (run.state n)).state d = .pending (.reaction p onFulfilled onRejected)) (later : n ≤ m)
    (settled : (promises (run.state m)).state p = .settled o) :
    ∃ k, n ≤ k ∧ (promises (run.state k)).state d = .pending (.reaction p onFulfilled onRejected) ∧
      ∃ a, run.act k = some a ∧ RunsJob promises isJob d (run.state k) a := by
  by_cases already : ∃ k, n ≤ k ∧ (promises (run.state k)).state d = .pending (.reaction p onFulfilled onRejected) ∧
      ∃ a, run.act k = some a ∧ RunsJob promises isJob d (run.state k) a
  · exact already
  · have still : (promises (run.state m)).state d = .pending (.reaction p onFulfilled onRejected) := by
      refine run.lasts (P := fun s => (promises s).state d = .pending (.reaction p onFulfilled onRejected)) later
        (fun k start _ a acts waits => ?_) waits
      rw [runs.kept (run.next_some acts) (by simp [waits]) fun job => already ⟨k, start, waits, a, acts, job⟩, waits]
    have due : d ∈ (promises (run.state m)).jobs :=
      ((promises (run.state m)).mem_jobs d).mpr (.inr ⟨p, by rw [still]; rfl, by simp [settled]⟩)
    obtain ⟨k, after, state, job⟩ := runs.job_runs run fair due
    exact ⟨k, by omega, by rw [state, still], job⟩

/-- A promise resolved with another subscribes to it. -/
theorem Runs.adoption_runs (runs : Runs step promises isJob) (run : Endless step init)
    (fair : JobsRun promises isJob run) {n : Nat} {d p : ι}
    (adopts : (promises (run.state n)).state d = .pending (.adoption p)) :
    ∃ k, n ≤ k ∧ (promises (run.state k)).state d = .pending (.adoption p) ∧
      ∃ a, run.act k = some a ∧ RunsJob promises isJob d (run.state k) a := by
  have due : d ∈ (promises (run.state n)).jobs :=
    ((promises (run.state n)).mem_jobs d).mpr (.inl (by rw [adopts]; rfl))
  obtain ⟨k, later, state, job⟩ := runs.job_runs run fair due
  exact ⟨k, later, by rw [state, adopts], job⟩

end Endless

end Promises
