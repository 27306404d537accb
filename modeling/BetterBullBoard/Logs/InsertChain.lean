import BetterBullBoard.Lib.Promises

/-! # The chain of log inserts

Every call of `serializeResolvedLogInsert` hangs its function on the promise that
the call before left. What the functions do is left open (`insertResolvedLogs` gives
one that inserts its lines): a function throws, or returns a promise, which settles
at any time. Calls come at any time too, also from a function that is running.
-/

namespace BetterBullBoard

/-- The promises of the chain, each by its call. -/
inductive InsertPromise where
  /-- `resolvedLogInsertChain` after so many calls. -/
  | chain (calls : Nat)
  | run (call : Nat)
  /-- The promise of the call itself, which is async. -/
  | returned (call : Nat)
  /-- The promise that the function given to the call returns. -/
  | fn (call : Nat)
  deriving Repr, DecidableEq

inductive InsertHandler where
  | fn (call : Nat)
  /-- `() => undefined` -/
  | swallow
  deriving Repr, DecidableEq

/-- How a promise settles; the value `undefined` is `none`. -/
abbrev InsertOutcome (τ : Type) : Type := PromiseOutcome (Option τ)

abbrev InsertState (τ : Type) : Type := PromiseState InsertPromise InsertHandler (Option τ)

abbrev InsertPromises (τ : Type) : Type := Promises InsertPromise InsertHandler (Option τ)

inductive InsertEvent (τ : Type) where
  | called (call : Nat)
  /-- It threw, or its promise settled. -/
  | ended (call : Nat) (outcome : InsertOutcome τ)
  deriving Repr, DecidableEq

structure InsertChain (τ : Type) where
  promises : InsertPromises τ
  resolvedLogInsertChain : InsertPromise
  calls : Nat
  /-- The function whose code is on the stack, and the promise its answer is for. -/
  executing : Option (Nat × InsertPromise)
  /-- The functions whose promises are pending. -/
  awaited : List Nat
  /-- What has become of the functions, in order. -/
  history : List (InsertEvent τ)

inductive InsertAction (τ : Type) where
  | call
  /-- The first job of the queue is run. -/
  | job
  /-- The code of a function ends with a promise, or throws. -/
  | returns
  | throws (reason : Option τ)
  | settles (call : Nat) (outcome : InsertOutcome τ)
  deriving Repr, DecidableEq

def InsertEvent.call {τ : Type} : InsertEvent τ → Nat
  | .called call => call
  | .ended call _ => call

/-- The call whose function is called. -/
def InsertEvent.started {τ : Type} : InsertEvent τ → Option Nat
  | .called call => some call
  | .ended _ _ => none

namespace InsertChain

variable {τ : Type}

def start : InsertChain τ where
  promises := .start fun p => if p = .chain 0 then some (.fulfilled none) else none
  resolvedLogInsertChain := .chain 0
  calls := 0
  executing := none
  awaited := []
  history := []

def serializeResolvedLogInsert (s : InsertChain τ) : InsertChain τ :=
  let run := .run s.calls
  let fn := some (.fn s.calls)
  let promises := s.promises.then_ run s.resolvedLogInsertChain fn fn
  let chain := .chain (s.calls + 1)
  let promises := promises.then_ chain run (some .swallow) (some .swallow)
  -- an async function resolves its own promise with what it returns
  { s with promises := promises.adopt (.returned s.calls) run, resolvedLogInsertChain := chain, calls := s.calls + 1 }

/-- A job has been run up to the call of this handler, if of any. -/
def react (s : InsertChain τ) (called : Option (InsertHandler × InsertPromise))
    (promises : InsertPromises τ) : InsertChain τ :=
  match called with
  | none => { s with promises }
  | some (.swallow, promise) => { s with promises := promises.settle promise (.fulfilled none) }
  | some (.fn call, promise) =>
      { s with promises, executing := some (call, promise), history := s.history ++ [.called call] }

def step (s : InsertChain τ) : InsertAction τ → Option (InsertChain τ)
  | .call => some s.serializeResolvedLogInsert
  | .job =>
      match s.executing with
      | some _ => none
      | none => s.promises.runJob.map fun (called, promises) => s.react called promises
  | .returns =>
      s.executing.map fun (call, promise) =>
        { s with promises := s.promises.adopt promise (.fn call), executing := none, awaited := s.awaited ++ [call] }
  | .throws reason =>
      s.executing.map fun (call, promise) =>
        { s with
          promises := s.promises.settle promise (.rejected reason)
          executing := none
          history := s.history ++ [.ended call (.rejected reason)] }
  | .settles call outcome =>
      if call ∈ s.awaited then
        some { s with
          promises := s.promises.settle (.fn call) outcome
          awaited := s.awaited.filter (· ≠ call)
          history := s.history ++ [.ended call outcome] }
      else none

/-- How the promise of a call has settled. -/
def outcome (s : InsertChain τ) (call : Nat) : Option (InsertOutcome τ) :=
  (s.promises.state (.returned call)).outcome

/-- Every function called, and ended like this, before the next one is called. -/
def turns (outcomes : List (InsertOutcome τ)) : List (InsertEvent τ) :=
  (outcomes.mapIdx fun call outcome => [.called call, .ended call outcome]).flatten

/-- The calls whose functions have been called. -/
def started (s : InsertChain τ) : List Nat := s.history.filterMap InsertEvent.started

/-- The functions run one at a time, in the order of the calls, and each promise
    that has settled has the outcome of its own function. -/
def Serialized (s : InsertChain τ) : Prop :=
  ∃ outcomes, (s.history = turns outcomes ∨ s.history = turns outcomes ++ [.called outcomes.length]) ∧
    (∀ call, .called call ∈ s.history → call < s.calls) ∧
    ∀ call o, s.outcome call = some o → outcomes[call]? = some o

/-- The event loop runs its jobs, and every function ends. -/
structure Fair (run : Machine.Endless step (start : InsertChain τ)) : Prop where
  jobs : Promises.JobsRun (·.promises) (· = .job) run
  returns : ∀ n, (run.state n).executing ≠ none →
    ∃ m, n ≤ m ∧ (run.act m = some .returns ∨ ∃ reason, run.act m = some (.throws reason))
  settles : ∀ n call, call ∈ (run.state n).awaited → ∃ m, n ≤ m ∧ ∃ o, run.act m = some (.settles call o)

end InsertChain

end BetterBullBoard
