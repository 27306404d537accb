import BetterBullBoard.Logs.InsertChain

/-! # One insert at a time

The promises of a call tell how far its function has come, and the function that may
run is the first that has not ended: the link that it waits for is fulfilled only when
the function before it has ended.
-/

namespace BetterBullBoard

namespace InsertChain

variable {τ : Type}

/-- Which function runs: none, or the next one, with code on the stack or a promise
    that is pending. -/
inductive Turn (s : InsertChain τ) (outcomes : List (InsertOutcome τ)) : Prop where
  | idle (executing : s.executing = none) (awaited : s.awaited = []) (history : s.history = turns outcomes)
  | executing (executing : s.executing = some (outcomes.length, .run outcomes.length)) (awaited : s.awaited = [])
      (history : s.history = turns outcomes ++ [.called outcomes.length])
      (run : s.promises.state (.run outcomes.length) = .pending .code)
  | awaited (executing : s.executing = none) (awaited : s.awaited = [outcomes.length])
      (history : s.history = turns outcomes ++ [.called outcomes.length])

/-- How far the function of a call has come, by the promise `run`. -/
inductive RunStage (s : InsertChain τ) (call : Nat) : Prop where
  | waiting (state : s.promises.state (.run call) =
        .pending (.reaction (.chain call) (some (.fn call)) (some (.fn call))))
      (uncalled : .called call ∉ s.history)
  | executing (executing : s.executing = some (call, .run call))
  | adopting (state : s.promises.state (.run call) = .pending (.adoption (.fn call)))
      (called : .called call ∈ s.history)
      (ended : ∀ o, .ended call o ∈ s.history → s.promises.state (.fn call) = .settled o)
  | following (state : s.promises.state (.run call) = .pending (.reaction (.fn call) none none))
      (called : .called call ∈ s.history)
      (ended : ∀ o, .ended call o ∈ s.history → s.promises.state (.fn call) = .settled o)
  | settled {o : InsertOutcome τ} (state : s.promises.state (.run call) = .settled o)
      (ended : .ended call o ∈ s.history)

/-- The link that the next call waits for. -/
inductive ChainStage (s : InsertChain τ) (call : Nat) : Prop where
  | waiting (state : s.promises.state (.chain (call + 1)) =
        .pending (.reaction (.run call) (some .swallow) (some .swallow)))
  | settled {o : InsertOutcome τ} (run : s.promises.state (.run call) = .settled o)
      (state : s.promises.state (.chain (call + 1)) = .settled (.fulfilled none))

inductive ReturnedStage (s : InsertChain τ) (call : Nat) : Prop where
  | adopting (state : s.promises.state (.returned call) = .pending (.adoption (.run call)))
  | following (state : s.promises.state (.returned call) = .pending (.reaction (.run call) none none))
  | settled {o : InsertOutcome τ} (run : s.promises.state (.run call) = .settled o)
      (state : s.promises.state (.returned call) = .settled o)

structure Inv (s : InsertChain τ) (outcomes : List (InsertOutcome τ)) : Prop where
  turn : Turn s outcomes
  tail : s.resolvedLogInsertChain = .chain s.calls
  first : s.promises.state (.chain 0) = .settled (.fulfilled none)
  known : ∀ call, .called call ∈ s.history → call < s.calls
  fn : ∀ call, s.promises.state (.fn call) = .pending .code ∨
    ∃ o, s.promises.state (.fn call) = .settled o ∧ .ended call o ∈ s.history
  fresh : ∀ call, s.calls ≤ call → s.promises.state (.run call) = .pending .code ∧
    s.promises.state (.chain (call + 1)) = .pending .code ∧ s.promises.state (.returned call) = .pending .code
  run : ∀ call, call < s.calls → RunStage s call
  chain : ∀ call, call < s.calls → ChainStage s call
  returned : ∀ call, call < s.calls → ReturnedStage s call

theorem mem_turns_called {outcomes : List (InsertOutcome τ)} {call : Nat} :
    .called call ∈ turns outcomes ↔ call < outcomes.length := by
  simp [turns, List.mem_mapIdx]

theorem mem_turns_ended {outcomes : List (InsertOutcome τ)} {call : Nat} {o : InsertOutcome τ} :
    .ended call o ∈ turns outcomes ↔ outcomes[call]? = some o := by
  simp only [turns, List.mem_flatten, List.mem_mapIdx]
  constructor
  · rintro ⟨_, ⟨i, bound, rfl⟩, found⟩
    simp only [List.mem_cons, reduceCtorEq, InsertEvent.ended.injEq, List.not_mem_nil, or_false, false_or] at found
    obtain ⟨rfl, rfl⟩ := found
    exact List.getElem?_eq_getElem bound
  · intro found
    obtain ⟨bound, rfl⟩ := List.getElem?_eq_some_iff.mp found
    exact ⟨_, ⟨call, bound, rfl⟩, by simp⟩

theorem turns_concat (outcomes : List (InsertOutcome τ)) (o : InsertOutcome τ) :
    turns (outcomes ++ [o]) = turns outcomes ++ [.called outcomes.length] ++ [.ended outcomes.length o] := by
  simp [turns, List.mapIdx_concat]

variable {s s' : InsertChain τ} {outcomes : List (InsertOutcome τ)}

/-- The events tell which functions have ended, and which have been called. -/
theorem Turn.events (turn : Turn s outcomes) :
    (∀ call o, .ended call o ∈ s.history ↔ outcomes[call]? = some o) ∧
      (∀ call, .called call ∈ s.history → call ≤ outcomes.length) ∧
      ∀ call, call < outcomes.length → .called call ∈ s.history := by
  cases turn with
  | idle _ _ history =>
      simp only [history, mem_turns_ended, mem_turns_called]
      exact ⟨fun _ _ => trivial, fun _ => Nat.le_of_lt, fun _ => id⟩
  | executing _ _ history _ =>
      simp only [history, List.mem_append, mem_turns_ended, mem_turns_called]
      exact ⟨by simp, by simp; omega, fun _ => .inl⟩
  | awaited _ _ history =>
      simp only [history, List.mem_append, mem_turns_ended, mem_turns_called]
      exact ⟨by simp, by simp; omega, fun _ => .inl⟩

theorem Turn.code_runs (turn : Turn s outcomes) {call : Nat} {promise : InsertPromise}
    (executing : s.executing = some (call, promise)) : call = outcomes.length ∧ promise = .run call ∧
      s.promises.state (.run call) = .pending .code ∧ s.awaited = [] ∧
        s.history = turns outcomes ++ [.called outcomes.length] := by
  cases turn with
  | idle idle => simp [idle] at executing
  | executing runs empty history code =>
      obtain ⟨rfl, rfl⟩ := Prod.mk.inj (Option.some.inj (runs.symm.trans executing))
      exact ⟨rfl, rfl, code, empty, history⟩
  | awaited idle => simp [idle] at executing

theorem Turn.awaited_runs (turn : Turn s outcomes) {call : Nat} (awaited : call ∈ s.awaited) :
    call = outcomes.length ∧ s.executing = none ∧ s.awaited = [call] ∧
      s.history = turns outcomes ++ [.called outcomes.length] := by
  cases turn with
  | idle _ empty => simp [empty] at awaited
  | executing _ empty => simp [empty] at awaited
  | awaited idle one history =>
      obtain rfl : call = outcomes.length := by simpa [one] using awaited
      exact ⟨rfl, idle, one, history⟩

theorem inv_start : Inv (start : InsertChain τ) [] where
  turn := .idle rfl rfl rfl
  tail := rfl
  first := rfl
  known call called := by simp [start] at called
  fn call := .inl rfl
  fresh call _ := ⟨rfl, by simp [start, Promises.start], rfl⟩
  run call made := absurd made (Nat.not_lt_zero call)
  chain call made := absurd made (Nat.not_lt_zero call)
  returned call made := absurd made (Nat.not_lt_zero call)

theorem Turn.frame (turn : Turn s outcomes) (executing : s'.executing = s.executing) (awaited : s'.awaited = s.awaited)
    (history : s'.history = s.history)
    (run : s.executing = some (outcomes.length, .run outcomes.length) →
      s'.promises.state (.run outcomes.length) = s.promises.state (.run outcomes.length)) : Turn s' outcomes := by
  cases turn with
  | idle idle empty events => exact .idle (executing.trans idle) (awaited.trans empty) (history.trans events)
  | executing runs empty events code =>
      exact .executing (executing.trans runs) (awaited.trans empty) (history.trans events) ((run runs).trans code)
  | awaited idle one events => exact .awaited (executing.trans idle) (awaited.trans one) (history.trans events)

/-- A stage depends on the promises of its call, and on what happened to its function. -/
theorem RunStage.frame {call : Nat} (stage : RunStage s call)
    (run : s'.promises.state (.run call) = s.promises.state (.run call))
    (fn : s'.promises.state (.fn call) = s.promises.state (.fn call))
    (executing : s.executing = some (call, .run call) → s'.executing = some (call, .run call))
    (called : .called call ∈ s'.history ↔ .called call ∈ s.history)
    (ended : ∀ o, .ended call o ∈ s'.history ↔ .ended call o ∈ s.history) : RunStage s' call := by
  cases stage with
  | waiting state uncalled => exact .waiting (run ▸ state) (mt called.mp uncalled)
  | executing runs => exact .executing (executing runs)
  | adopting state given settles =>
      exact .adopting (run ▸ state) (called.mpr given) (by simpa [ended, fn] using settles)
  | following state given settles =>
      exact .following (run ▸ state) (called.mpr given) (by simpa [ended, fn] using settles)
  | settled state settles => exact .settled (run ▸ state) ((ended _).mpr settles)

theorem ChainStage.frame {call : Nat} (stage : ChainStage s call)
    (chain : s'.promises.state (.chain (call + 1)) = s.promises.state (.chain (call + 1)))
    (run : ∀ o, s.promises.state (.run call) = .settled o → s'.promises.state (.run call) = .settled o) :
    ChainStage s' call := by
  cases stage with
  | waiting state => exact .waiting (chain ▸ state)
  | settled settled state => exact .settled (run _ settled) (chain ▸ state)

theorem ReturnedStage.frame {call : Nat} (stage : ReturnedStage s call)
    (returned : s'.promises.state (.returned call) = s.promises.state (.returned call))
    (run : ∀ o, s.promises.state (.run call) = .settled o → s'.promises.state (.run call) = .settled o) :
    ReturnedStage s' call := by
  cases stage with
  | adopting state => exact .adopting (returned ▸ state)
  | following state => exact .following (returned ▸ state)
  | settled settled state => exact .settled (run _ settled) (returned ▸ state)

/-- A call makes three promises. -/
theorem Inv.serialize_state (inv : Inv s outcomes) : s.serializeResolvedLogInsert.promises.state =
    Function.update (Function.update (Function.update s.promises.state (.run s.calls)
      (.pending (.reaction (.chain s.calls) (some (.fn s.calls)) (some (.fn s.calls)))))
      (.chain (s.calls + 1)) (.pending (.reaction (.run s.calls) (some .swallow) (some .swallow))))
      (.returned s.calls) (.pending (.adoption (.run s.calls))) := by
  obtain ⟨run, chain, returned⟩ := inv.fresh s.calls (Nat.le_refl _)
  simp only [serializeResolvedLogInsert]
  rw [Promises.state_adopt, Promises.state_then, Promises.state_then run, inv.tail]
  · simp [Promises.state_then run, chain]
  · rw [Promises.state_then, Promises.state_then run]
    · simp [returned]
    · simp [Promises.state_then run, chain]

theorem inv_serialize (inv : Inv s outcomes) : Inv s.serializeResolvedLogInsert outcomes := by
  have state := inv.serialize_state
  have other : ∀ q, q ≠ .run s.calls → q ≠ .chain (s.calls + 1) → q ≠ .returned s.calls →
      s.serializeResolvedLogInsert.promises.state q = s.promises.state q := by
    intro q ne₁ ne₂ ne₃
    rw [state, Function.update_of_ne ne₃, Function.update_of_ne ne₂, Function.update_of_ne ne₁]
  exact {
    turn := inv.turn.frame rfl rfl rfl fun executing => by
      have made : outcomes.length < s.calls := by
        refine inv.known _ ?_
        cases inv.turn with
        | idle idle => simp [idle] at executing
        | executing _ _ history => simp [history]
        | awaited idle => simp [idle] at executing
      exact other _ (by simp; omega) (by simp) (by simp)
    tail := rfl
    first := by rw [other _ (by simp) (by simp) (by simp), inv.first]
    known := fun call called => Nat.lt_succ_of_lt (inv.known call called)
    fn := fun call => by
      rw [other _ (by simp) (by simp) (by simp)]
      exact inv.fn call
    fresh := fun call unmade => by
      simp only [serializeResolvedLogInsert] at unmade
      rw [other _ (by simp; omega) (by simp) (by simp), other _ (by simp) (by simp; omega) (by simp),
        other _ (by simp) (by simp) (by simp; omega)]
      exact inv.fresh call (by omega)
    run := fun call made => by
      rcases Nat.lt_succ_iff_lt_or_eq.mp made with earlier | rfl
      · exact (inv.run call earlier).frame (other _ (by simp; omega) (by simp) (by simp))
          (other _ (by simp) (by simp) (by simp)) id Iff.rfl fun _ => Iff.rfl
      · exact .waiting (by simp [state]) fun called => Nat.lt_irrefl _ (inv.known _ called)
    chain := fun call made => by
      rcases Nat.lt_succ_iff_lt_or_eq.mp made with earlier | rfl
      · refine (inv.chain call earlier).frame (other _ (by simp) (by simp; omega) (by simp)) fun o settled => ?_
        rw [other _ (by simp; omega) (by simp) (by simp), settled]
      · exact .waiting (by simp [state])
    returned := fun call made => by
      rcases Nat.lt_succ_iff_lt_or_eq.mp made with earlier | rfl
      · refine (inv.returned call earlier).frame (other _ (by simp) (by simp) (by simp; omega)) fun o settled => ?_
        rw [other _ (by simp; omega) (by simp) (by simp), settled]
      · exact .adopting (by simp [state]) }

theorem mem_of_other {e : InsertEvent τ} {added : List (InsertEvent τ)} {call : Nat}
    (history : s'.history = s.history ++ added) (only : ∀ e ∈ added, e.call = call) (other : e.call ≠ call) :
    e ∈ s'.history ↔ e ∈ s.history := by
  rw [history, List.mem_append, or_iff_left_iff_imp]
  exact fun new => absurd (only e new) other

/-- The promise `run` of one call moves on. -/
theorem Inv.run_moves {call : Nat} {x : InsertState τ}
    {outcomes' : List (InsertOutcome τ)} {added : List (InsertEvent τ)} (inv : Inv s outcomes)
    (made : call < s.calls) (unsettled : ∀ o, s.promises.state (.run call) ≠ .settled o)
    (state : s'.promises.state = Function.update s.promises.state (.run call) x) (calls : s'.calls = s.calls)
    (tail : s'.resolvedLogInsertChain = s.resolvedLogInsertChain) (history : s'.history = s.history ++ added)
    (only : ∀ e ∈ added, e.call = call)
    (executing : ∀ other, other ≠ call → s.executing = some (other, .run other) →
      s'.executing = some (other, .run other))
    (turn : Turn s' outcomes') (stage : RunStage s' call) : Inv s' outcomes' := by
  have same : ∀ q, q ≠ .run call → s'.promises.state q = s.promises.state q := fun q other => by
    rw [state, Function.update_of_ne other]
  have run : ∀ other o, s.promises.state (.run other) = .settled o → s'.promises.state (.run other) = .settled o := by
    intro other o settled
    rwa [same]
    rintro ⟨⟩
    exact unsettled o settled
  exact {
    turn
    tail := by rw [tail, calls, inv.tail]
    first := by rw [same _ (by simp), inv.first]
    known := fun other called => by
      rw [calls]
      by_cases it : other = call
      · exact it ▸ made
      · exact inv.known other ((mem_of_other history only (by exact it)).mp called)
    fn := fun other => by
      rw [same _ (by simp), history]
      exact (inv.fn other).imp id fun ⟨o, settled, ended⟩ => ⟨o, settled, List.mem_append_left added ended⟩
    fresh := fun other unmade => by
      rw [same _ (by simp; omega), same _ (by simp), same _ (by simp)]
      exact inv.fresh other (calls ▸ unmade)
    run := fun other there => by
      by_cases it : other = call
      · exact it ▸ stage
      · exact (inv.run other (calls ▸ there)).frame (same _ (by simpa using it)) (same _ (by simp))
          (executing other it) (mem_of_other history only it) fun o => mem_of_other history only it
    chain := fun other there => (inv.chain other (calls ▸ there)).frame (same _ (by simp)) (run other)
    returned := fun other there => (inv.returned other (calls ▸ there)).frame (same _ (by simp)) (run other) }

/-- So does the link that a call leaves, or its own promise. -/
theorem Inv.derived_moves {call : Nat} {d : InsertPromise} {x : InsertState τ}
    {promises : InsertPromises τ} (inv : Inv s outcomes)
    (derived : d = .chain (call + 1) ∨ d = .returned call) (made : call < s.calls)
    (state : promises.state = Function.update s.promises.state d x)
    (chain : d = .chain (call + 1) → ChainStage { s with promises } call)
    (returned : d = .returned call → ReturnedStage { s with promises } call) : Inv { s with promises } outcomes := by
  have same : ∀ q, q ≠ d → promises.state q = s.promises.state q := fun q other => by
    rw [state, Function.update_of_ne other]
  have run : ∀ other, promises.state (.run other) = s.promises.state (.run other) := fun other =>
    same _ (by rcases derived with rfl | rfl <;> simp)
  have fn : ∀ other, promises.state (.fn other) = s.promises.state (.fn other) := fun other =>
    same _ (by rcases derived with rfl | rfl <;> simp)
  exact {
    turn := inv.turn.frame rfl rfl rfl fun _ => run _
    tail := inv.tail
    first := (same _ (by rcases derived with rfl | rfl <;> simp)).trans inv.first
    known := inv.known
    fn := fun other => by
      rw [fn]
      exact inv.fn other
    fresh := fun other unmade => by
      have later : call ≠ other := Nat.ne_of_lt (Nat.lt_of_lt_of_le made unmade)
      dsimp only
      rw [run, same _ (by rcases derived with rfl | rfl <;> simp [later.symm]),
        same _ (by rcases derived with rfl | rfl <;> simp [later.symm])]
      exact inv.fresh other unmade
    run := fun other there => (inv.run other there).frame (run other) (fn other) id Iff.rfl fun _ => Iff.rfl
    chain := fun other there => by
      by_cases it : d = .chain (other + 1)
      · rcases derived with rfl | rfl
        · obtain rfl : call = other := by simpa using it
          exact chain rfl
        · simp at it
      · exact (inv.chain other there).frame (same _ (Ne.symm it)) fun o settled => (run other).trans settled
    returned := fun other there => by
      by_cases it : d = .returned other
      · rcases derived with rfl | rfl
        · simp at it
        · obtain rfl : call = other := by simpa using it
          exact returned rfl
      · exact (inv.returned other there).frame (same _ (Ne.symm it)) fun o settled => (run other).trans settled }

/-- The promise of a function that has returned is pending. -/
theorem Inv.awaited_fn {call : Nat} (inv : Inv s outcomes) (awaited : call ∈ s.awaited) :
    s.promises.state (.fn call) = .pending .code := by
  obtain ⟨rfl, -, -, -⟩ := inv.turn.awaited_runs awaited
  refine (inv.fn _).resolve_right fun ⟨o, _, before⟩ => ?_
  simpa using (inv.turn.events.1 _ _).mp before

/-- The stage of a call whose function ends; it ends once. -/
theorem RunStage.fn_ends {call : Nat} {o : InsertOutcome τ} (stage : RunStage s call)
    (idle : s.executing = none) (called : .called call ∈ s.history) (once : ∀ o', .ended call o' ∉ s.history)
    (run : s'.promises.state (.run call) = s.promises.state (.run call))
    (fn : s'.promises.state (.fn call) = .settled o) (history : s'.history = s.history ++ [.ended call o]) :
    RunStage s' call := by
  have still : .called call ∈ s'.history := by
    rw [history]
    exact List.mem_append_left _ called
  have ended : ∀ o', .ended call o' ∈ s'.history → s'.promises.state (.fn call) = .settled o' := by
    intro o' ends
    rw [history, List.mem_append] at ends
    obtain rfl : o' = o := by simpa using ends.resolve_left (once o')
    exact fn
  cases stage with
  | waiting _ uncalled => exact absurd called uncalled
  | executing runs => simp [idle] at runs
  | adopting adopts => exact .adopting (run.trans adopts) still ended
  | following follows => exact .following (run.trans follows) still ended
  | settled _ before => exact absurd before (once _)

/-- The promise that a function returned settles. -/
theorem Inv.fn_settles {call : Nat} {o : InsertOutcome τ} (inv : Inv s outcomes)
    (awaited : call ∈ s.awaited) (enabled : step s (.settles call o) = some s') : Inv s' (outcomes ++ [o]) := by
  rw [step, if_pos awaited, Option.some_inj] at enabled
  obtain ⟨rfl, idle, one, events⟩ := inv.turn.awaited_runs awaited
  have state : s'.promises.state = Function.update s.promises.state (.fn outcomes.length) (.settled o) := by
    rw [← enabled, Promises.state_settle (inv.awaited_fn awaited)]
  have same : ∀ q, q ≠ .fn outcomes.length → s'.promises.state q = s.promises.state q := fun q other => by
    rw [state, Function.update_of_ne other]
  have history : s'.history = s.history ++ [.ended outcomes.length o] := by rw [← enabled]
  have only : ∀ e ∈ [InsertEvent.ended outcomes.length o], e.call = outcomes.length := by simp [InsertEvent.call]
  have calls : s'.calls = s.calls := by rw [← enabled]
  exact {
    turn := by
      refine .idle ?_ ?_ ?_
      · rw [← enabled]
        exact idle
      · simp [← enabled, one]
      · rw [history, events, turns_concat]
    tail := by rw [calls, ← inv.tail, ← enabled]
    first := by rw [same _ (by simp), inv.first]
    known := fun other called => by
      rw [calls]
      exact inv.known other (by simpa [history] using called)
    fn := fun other => by
      by_cases it : other = outcomes.length
      · subst it
        exact .inr ⟨o, by simp [state], by simp [history]⟩
      · rw [same _ (by simpa using it)]
        exact (inv.fn other).imp id fun ⟨o', settled, ended⟩ => ⟨o', settled, by simp [history, ended]⟩
    fresh := fun other unmade => by
      rw [same _ (by simp), same _ (by simp), same _ (by simp)]
      exact inv.fresh other (calls ▸ unmade)
    run := fun other there => by
      have stage := inv.run other (calls ▸ there)
      by_cases it : other = outcomes.length
      · subst it
        refine stage.fn_ends idle (by simp [events]) (fun o' ends => ?_) (same _ (by simp)) (by simp [state]) history
        simpa using (inv.turn.events.1 _ _).mp ends
      · refine stage.frame (same _ (by simp)) (same _ (by simpa using it)) (fun runs => ?_)
          (mem_of_other history only it) fun o => mem_of_other history only it
        simp [idle] at runs
    chain := fun other there => (inv.chain other (calls ▸ there)).frame (same _ (by simp)) fun o settled => by
      rw [same _ (by simp), settled]
    returned := fun other there => (inv.returned other (calls ▸ there)).frame (same _ (by simp)) fun o settled => by
      rw [same _ (by simp), settled] }

/-- What waits for another promise is a promise of a call that was made. -/
theorem Inv.of_waiting (inv : Inv s outcomes) {d : InsertPromise} {source : Source InsertPromise InsertHandler}
    (state : s.promises.state d = .pending source) (waits : source ≠ .code) :
    ∃ call, call < s.calls ∧ (d = .run call ∨ d = .chain (call + 1) ∨ d = .returned call) := by
  have made : ∀ call, (s.calls ≤ call → s.promises.state d = .pending .code) → call < s.calls := fun call fresh =>
    Nat.lt_of_not_le fun unmade => waits (by simpa [state] using fresh unmade)
  cases d with
  | chain calls =>
      cases calls with
      | zero => simp [inv.first] at state
      | succ call => exact ⟨call, made call fun unmade => (inv.fresh call unmade).2.1, .inr (.inl rfl)⟩
  | run call => exact ⟨call, made call fun unmade => (inv.fresh call unmade).1, .inl rfl⟩
  | returned call => exact ⟨call, made call fun unmade => (inv.fresh call unmade).2.2, .inr (.inr rfl)⟩
  | fn call =>
      obtain given | ⟨o, settled, -⟩ := inv.fn call
      · exact absurd (by simpa [state] using given) waits
      · simp [settled] at state

/-- The jobs that subscribe a promise to the one it was resolved with. -/
theorem Inv.adoptions (inv : Inv s outcomes) {d p : InsertPromise}
    (state : s.promises.state d = .pending (.adoption p)) :
    ∃ call, call < s.calls ∧ ((d = .run call ∧ p = .fn call) ∨ (d = .returned call ∧ p = .run call)) := by
  obtain ⟨call, made, rfl | rfl | rfl⟩ := inv.of_waiting state (by simp)
  · refine ⟨call, made, .inl ⟨rfl, ?_⟩⟩
    cases inv.run call made with
    | waiting waits => simp [waits] at state
    | executing runs => simp [(inv.turn.code_runs runs).2.2.1] at state
    | adopting adopts => simpa [adopts, eq_comm] using state
    | following follows => simp [follows] at state
    | settled settled => simp [settled] at state
  · cases inv.chain call made with
    | waiting waits => simp [waits] at state
    | settled _ link => simp [link] at state
  · refine ⟨call, made, .inr ⟨rfl, ?_⟩⟩
    cases inv.returned call made with
    | adopting adopts => simpa [adopts, eq_comm] using state
    | following follows => simp [follows] at state
    | settled _ settled => simp [settled] at state

/-- The jobs that pass an outcome on, or call a handler on it. -/
theorem Inv.reactions (inv : Inv s outcomes) {d p : InsertPromise} {onFulfilled onRejected : Option InsertHandler}
    (state : s.promises.state d = .pending (.reaction p onFulfilled onRejected)) :
    ∃ call, call < s.calls ∧
      ((d = .run call ∧ p = .chain call ∧ onFulfilled = some (.fn call) ∧ onRejected = some (.fn call) ∧
          .called call ∉ s.history) ∨
        (d = .run call ∧ p = .fn call ∧ onFulfilled = none ∧ onRejected = none) ∨
        (d = .chain (call + 1) ∧ p = .run call ∧ onFulfilled = some .swallow ∧ onRejected = some .swallow) ∨
        (d = .returned call ∧ p = .run call ∧ onFulfilled = none ∧ onRejected = none)) := by
  obtain ⟨call, made, rfl | rfl | rfl⟩ := inv.of_waiting state (by simp)
  · refine ⟨call, made, ?_⟩
    cases inv.run call made with
    | waiting waits uncalled => exact .inl (by grind)
    | executing runs => simp [(inv.turn.code_runs runs).2.2.1] at state
    | adopting adopts => simp [adopts] at state
    | following follows => exact .inr (.inl (by grind))
    | settled settled => simp [settled] at state
  · refine ⟨call, made, .inr (.inr (.inl ?_))⟩
    cases inv.chain call made with
    | waiting waits => grind
    | settled _ link => simp [link] at state
  · refine ⟨call, made, .inr (.inr (.inr ?_))⟩
    cases inv.returned call made with
    | adopting adopts => simp [adopts] at state
    | following follows => grind
    | settled _ settled => simp [settled] at state

/-- A function whose turn it is: the call before it has ended. -/
theorem Inv.next_turn (inv : Inv s outcomes) {call : Nat} {o : InsertOutcome τ} (made : call < s.calls)
    (executing : s.executing = none) (uncalled : .called call ∉ s.history)
    (settled : s.promises.state (.chain call) = .settled o) :
    call = outcomes.length ∧ s.awaited = [] ∧ s.history = turns outcomes := by
  obtain ⟨ended, calledTo, called⟩ := inv.turn.events
  have before : call ≤ outcomes.length := by
    cases call with
    | zero => exact Nat.zero_le _
    | succ call =>
        cases inv.chain call (by omega) with
        | waiting waits => simp [waits] at settled
        | settled run _ =>
            cases inv.run call (by omega) with
            | settled _ ends => exact (List.getElem?_eq_some_iff.mp ((ended _ _).mp ends)).1
            | waiting waits => simp [waits] at run
            | executing runs => simp [executing] at runs
            | adopting adopts => simp [adopts] at run
            | following follows => simp [follows] at run
  have after : outcomes.length ≤ call := Nat.le_of_not_lt fun earlier => uncalled (called call earlier)
  obtain rfl := Nat.le_antisymm before after
  cases inv.turn with
  | idle _ empty history => exact ⟨rfl, empty, history⟩
  | executing runs => simp [runs] at executing
  | awaited _ _ history => exact absurd (by simp [history]) uncalled

theorem step_job (enabled : step s .job = some s') :
    s.executing = none ∧
      ∃ called promises, s.promises.runJob = some (called, promises) ∧ s.react called promises = s' := by
  simp only [step] at enabled
  split at enabled
  · cases enabled
  · rename_i idle
    obtain ⟨⟨called, promises⟩, ran, made⟩ := Option.map_eq_some_iff.mp enabled
    exact ⟨idle, called, promises, ran, made⟩

theorem Inv.adoption_job {d p : InsertPromise} {promises : InsertPromises τ}
    (inv : Inv s outcomes) (idle : s.executing = none) (adopts : s.promises.state d = .pending (.adoption p))
    (state : promises.state = Function.update s.promises.state d (.pending (.reaction p none none))) :
    Inv { s with promises } outcomes := by
  obtain ⟨call, made, ⟨rfl, rfl⟩ | ⟨rfl, rfl⟩⟩ := inv.adoptions adopts
  · have fn : promises.state (.fn call) = s.promises.state (.fn call) := by simp [state]
    refine inv.run_moves made (by simp [adopts]) state rfl rfl (List.append_nil _).symm (by simp) (fun _ _ => id)
      (inv.turn.frame rfl rfl rfl (by simp [idle])) ?_
    cases inv.run call made with
    | adopting _ called ended => exact .following (by simp [state]) called (by rwa [fn])
    | waiting waits => simp [waits] at adopts
    | executing runs => simp [idle] at runs
    | following follows => simp [follows] at adopts
    | settled settled => simp [settled] at adopts
  · exact inv.derived_moves (.inr rfl) made state (by simp) fun _ => .following (by simp [state])

theorem Inv.pass_job {d p : InsertPromise} {o : InsertOutcome τ}
    {promises : InsertPromises τ} (inv : Inv s outcomes) (idle : s.executing = none)
    {onFulfilled onRejected : Option InsertHandler}
    (waits : s.promises.state d = .pending (.reaction p onFulfilled onRejected))
    (settled : s.promises.state p = .settled o)
    (passes : Promises.handler onFulfilled onRejected o = none)
    (state : promises.state = Function.update s.promises.state d (.settled o)) : Inv { s with promises } outcomes := by
  obtain ⟨call, made, ⟨rfl, rfl, rfl, rfl, -⟩ | ⟨rfl, rfl, -⟩ | ⟨rfl, rfl, rfl, rfl⟩ | ⟨rfl, rfl, -⟩⟩ :=
    inv.reactions waits
  · cases o <;> simp [Promises.handler] at passes
  · refine inv.run_moves made (by simp [waits]) state rfl rfl (List.append_nil _).symm (by simp) (fun _ _ => id)
      (inv.turn.frame rfl rfl rfl (by simp [idle])) (.settled (by simp [state]; rfl) ?_)
    obtain given | ⟨o', settled', ended⟩ := inv.fn call
    · simp [given] at settled
    · obtain rfl : o' = o := by simpa [settled'] using settled
      exact ended
  · cases o <;> simp [Promises.handler] at passes
  · exact inv.derived_moves (.inr rfl) made state (by simp) fun _ =>
      .settled (by simp [state, settled]; rfl) (by simp [state])

theorem Inv.call_job {d p : InsertPromise} {o : InsertOutcome τ} {callback : InsertHandler}
    {promises : InsertPromises τ} (inv : Inv s outcomes) (idle : s.executing = none)
    {onFulfilled onRejected : Option InsertHandler}
    (waits : s.promises.state d = .pending (.reaction p onFulfilled onRejected))
    (settled : s.promises.state p = .settled o)
    (handles : Promises.handler onFulfilled onRejected o = some callback)
    (state : promises.state = Function.update s.promises.state d (.pending .code)) :
    Inv (s.react (some (callback, d)) promises) outcomes := by
  obtain ⟨call, made, own⟩ := inv.reactions waits
  obtain ⟨rfl, rfl, rfl, rfl, uncalled⟩ | ⟨rfl, rfl, rfl, rfl⟩ | ⟨rfl, rfl, rfl, rfl⟩ | ⟨rfl, rfl, rfl, rfl⟩ := own
  · obtain rfl : callback = .fn call := by cases o <;> simpa [Promises.handler, eq_comm] using handles
    obtain ⟨rfl, empty, history⟩ := inv.next_turn made idle uncalled settled
    exact inv.run_moves made (by simp [waits]) state rfl rfl rfl (by simp [InsertEvent.call]) (by simp [idle])
      (.executing rfl empty (by simp [react, history]) (by simp [react, state])) (.executing rfl)
  · cases o <;> simp [Promises.handler] at handles
  · obtain rfl : callback = .swallow := by cases o <;> simpa [Promises.handler, eq_comm] using handles
    have given : promises.state (.chain (call + 1)) = .pending .code := by simp [state]
    refine inv.derived_moves (.inl rfl) made (x := .settled (.fulfilled none)) ?_ (fun _ => ?_) (by simp)
    · rw [Promises.state_settle given, state, Function.update_idem]
    · exact .settled (o := o) (by simp [Promises.state_settle given, state, settled])
        (by simp [Promises.state_settle given])
  · cases o <;> simp [Promises.handler] at handles

theorem Inv.job (inv : Inv s outcomes) (enabled : step s .job = some s') : Inv s' outcomes := by
  obtain ⟨idle, called, promises, ran, rfl⟩ := step_job enabled
  obtain ⟨d, s₀, -, -, ⟨p, adopts, rfl, state⟩ | ⟨p, onFulfilled, onRejected, o, waits, settled, effect⟩⟩ :=
    Promises.runJob_cases ran
  · exact inv.adoption_job idle adopts state
  · obtain ⟨passes, rfl, state⟩ | ⟨callback, handles, rfl, state⟩ := effect
    · exact inv.pass_job idle waits settled passes state
    · exact inv.call_job idle waits settled handles state

theorem Inv.returns (inv : Inv s outcomes) (enabled : step s .returns = some s') : Inv s' outcomes := by
  obtain ⟨⟨call, promise⟩, executing, rfl⟩ := Option.map_eq_some_iff.mp enabled
  obtain ⟨rfl, rfl, code, empty, history⟩ := inv.turn.code_runs executing
  have called : .called outcomes.length ∈ s.history := by simp [history]
  refine inv.run_moves (inv.known _ called) (by simp [code]) (Promises.state_adopt code) rfl rfl
    (List.append_nil _).symm (by simp) (fun other apart runs => ?_) (.awaited rfl (by simp [empty]) history)
    (.adopting (by simp [Promises.state_adopt code]) called fun o ends => ?_)
  · simp [executing] at runs
    exact absurd runs.symm apart
  · simpa using (inv.turn.events.1 _ _).mp ends

theorem Inv.throws {reason : Option τ} (inv : Inv s outcomes) (enabled : step s (.throws reason) = some s') :
    Inv s' (outcomes ++ [.rejected reason]) := by
  obtain ⟨⟨call, promise⟩, executing, rfl⟩ := Option.map_eq_some_iff.mp enabled
  obtain ⟨rfl, rfl, code, empty, history⟩ := inv.turn.code_runs executing
  have called : .called outcomes.length ∈ s.history := by simp [history]
  refine inv.run_moves (inv.known _ called) (by simp [code]) (Promises.state_settle code) rfl rfl rfl
    (by simp [InsertEvent.call]) (fun other apart runs => ?_)
    (.idle rfl empty (by simp [history, turns_concat]))
    (.settled (by simp [Promises.state_settle code]; rfl) (by simp))
  simp [executing] at runs
  exact absurd runs.symm apart

theorem Inv.next {a : InsertAction τ} (inv : Inv s outcomes) (enabled : step s a = some s') :
    ∃ outcomes', Inv s' outcomes' := by
  cases a with
  | call =>
      obtain rfl := Option.some.inj enabled
      exact ⟨outcomes, inv_serialize inv⟩
  | job => exact ⟨outcomes, inv.job enabled⟩
  | returns => exact ⟨outcomes, inv.returns enabled⟩
  | throws reason => exact ⟨_, inv.throws enabled⟩
  | settles call o =>
      by_cases awaited : call ∈ s.awaited
      · exact ⟨_, inv.fn_settles awaited enabled⟩
      · simp [step, awaited] at enabled

/-- A promise that a call returned settles with the outcome of the call's function. -/
theorem Inv.own {call : Nat} {o : InsertOutcome τ} (inv : Inv s outcomes)
    (settled : s.outcome call = some o) :
    outcomes[call]? = some o := by
  by_cases made : call < s.calls
  · cases inv.returned call made with
    | adopting adopts => simp [outcome, adopts] at settled
    | following follows => simp [outcome, follows] at settled
    | settled run state =>
        obtain rfl : _ = o := by simpa [outcome, state] using settled
        cases inv.run call made with
        | settled run' ended =>
            obtain rfl : _ = _ := by simpa [run'] using run
            exact (inv.turn.events.1 _ _).mp ended
        | waiting waits => simp [waits] at run
        | executing runs => simp [(inv.turn.code_runs runs).2.2.1] at run
        | adopting adopts => simp [adopts] at run
        | following follows => simp [follows] at run
  · simp [outcome, (inv.fresh call (by omega)).2.2] at settled

theorem Inv.serialized (inv : Inv s outcomes) : Serialized s := by
  refine ⟨outcomes, ?_, inv.known, fun _ _ => inv.own⟩
  cases inv.turn with
  | idle _ _ history => exact .inl history
  | executing _ _ history _ => exact .inr history
  | awaited _ _ history => exact .inr history

theorem Turn.started_eq (turn : Turn s outcomes) :
    s.started = List.range outcomes.length ∨ s.started = List.range (outcomes.length + 1) := by
  have inTurns : ∀ os : List (InsertOutcome τ), (turns os).filterMap InsertEvent.started =
      List.range os.length := by
    intro os
    induction os using List.reverseRecOn with
    | nil => rfl
    | append_singleton os o ih =>
        rw [turns_concat, List.filterMap_append, List.filterMap_append, ih, List.length_append, List.length_singleton,
          List.range_succ]
        simp [InsertEvent.started]
  cases turn with
  | idle _ _ history => exact .inl (by rw [started, history, inTurns])
  | executing _ _ history _ =>
      exact .inr (by rw [started, history, List.filterMap_append, inTurns, List.range_succ]; rfl)
  | awaited _ _ history =>
      exact .inr (by rw [started, history, List.filterMap_append, inTurns, List.range_succ]; rfl)

/-- A call whose promise has settled had its function called once. -/
theorem Inv.started_once {call : Nat} {o : InsertOutcome τ} (inv : Inv s outcomes)
    (settled : s.outcome call = some o) : s.started.count call = 1 ∧ .ended call o ∈ s.history := by
  have ended := inv.own settled
  obtain ⟨bound, -⟩ := List.getElem?_eq_some_iff.mp ended
  refine ⟨?_, (inv.turn.events.1 call o).mpr ended⟩
  obtain one | one := inv.turn.started_eq <;> rw [one]
  · exact List.count_eq_one_of_mem List.nodup_range (List.mem_range.mpr bound)
  · exact List.count_eq_one_of_mem List.nodup_range (List.mem_range.mpr (Nat.lt_succ_of_lt bound))

theorem serialized {s : InsertChain τ} (reach : Machine.Reachable step start s) : s.Serialized := by
  obtain ⟨outcomes, inv⟩ := reach.invariant (I := fun s => ∃ outcomes, Inv s outcomes)
    (fun _ _ _ ⟨_, inv⟩ enabled => inv.next enabled) ⟨[], inv_start⟩
  exact inv.serialized

end InsertChain

end BetterBullBoard
