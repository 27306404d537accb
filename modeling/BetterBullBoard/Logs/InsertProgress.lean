import BetterBullBoard.Logs.InsertTurns

/-! # Every insert gets its turn

In a run where queued jobs keep being run and every function ends, the promise of
every call settles: each stage of a call leads to the next one, and the end of its
function to the turn of the call after it.
-/

namespace BetterBullBoard

namespace InsertChain

variable {τ : Type} {s s' : InsertChain τ} {outcomes : List (InsertOutcome τ)}

theorem runs : Promises.Runs (step (τ := τ)) (·.promises) (· = .job) where
  code {s a s'} enabled other := by
    cases a with
    | call =>
        obtain rfl := Option.some.inj enabled
        exact Promises.grows_then.trans (Promises.grows_then.trans Promises.grows_adopt)
    | job => exact absurd rfl other
    | returns =>
        obtain ⟨⟨call, promise⟩, -, rfl⟩ := Option.map_eq_some_iff.mp enabled
        exact Promises.grows_adopt
    | throws reason =>
        obtain ⟨⟨call, promise⟩, -, rfl⟩ := Option.map_eq_some_iff.mp enabled
        exact Promises.grows_settle
    | settles call o =>
        simp only [step, Option.ite_none_right_eq_some, Option.some_inj] at enabled
        rw [← enabled.2]
        exact Promises.grows_settle
  job {s a s'} enabled it := by
    subst it
    obtain ⟨-, called, promises, ran, rfl⟩ := step_job enabled
    obtain ⟨d, s₀, taken, grows, -⟩ := Promises.runJob_cases ran
    refine ⟨d, s₀, taken, ?_⟩
    cases called with
    | none => exact grows
    | some handled =>
        obtain ⟨handler, promise⟩ := handled
        cases handler with
        | fn call => exact grows
        | swallow => exact grows.trans Promises.grows_settle

/-- What the job of a promise comes to, by what the promise waits for. -/
theorem job_effect {d : InsertPromise} (enabled : step s .job = some s') (head : s.promises.jobs.head? = some d) :
    (∃ p, s.promises.state d = .pending (.adoption p) ∧ s'.promises.state d = .pending (.reaction p none none)) ∨
      ∃ p onFulfilled onRejected o, s.promises.state d = .pending (.reaction p onFulfilled onRejected) ∧
        s.promises.state p = .settled o ∧
        match Promises.handler onFulfilled onRejected o with
        | none => s'.promises.state d = .settled o
        | some .swallow => s'.promises.state d = .settled (.fulfilled none)
        | some (.fn call) => s'.executing = some (call, d) := by
  obtain ⟨-, called, promises, ran, rfl⟩ := step_job enabled
  obtain ⟨first, s₀, taken, -, effect⟩ := Promises.runJob_cases ran
  obtain rfl : first = d := by simpa [(Promises.take_eq_some taken).1] using head
  obtain ⟨p, adopts, rfl, state⟩ | ⟨p, onFulfilled, onRejected, o, waits, settled, effect⟩ := effect
  · exact .inl ⟨p, adopts, by simp [react, state]⟩
  · refine .inr ⟨p, onFulfilled, onRejected, o, waits, settled, ?_⟩
    obtain ⟨passes, rfl, state⟩ | ⟨callback, handles, rfl, state⟩ := effect
    · simp [passes, react, state]
    · rw [handles]
      cases callback with
      | fn call => rfl
      | swallow =>
          have given : promises.state first = .pending .code := by simp [state]
          simp [react, Promises.state_settle given]

variable {run : Machine.Endless step (start : InsertChain τ)}

theorem inv_at (run : Machine.Endless step (start : InsertChain τ)) (n : Nat) :
    ∃ outcomes, Inv (run.state n) outcomes :=
  (run.reachable n).invariant (I := fun s => ∃ outcomes, Inv s outcomes)
    (fun _ _ _ ⟨_, inv⟩ enabled => inv.next enabled) ⟨[], inv_start⟩

theorem calls_le {a : InsertAction τ} (enabled : step s a = some s') : s.calls ≤ s'.calls := by
  cases a with
  | call =>
      obtain rfl := Option.some.inj enabled
      exact Nat.le_succ _
  | job =>
      obtain ⟨-, called, promises, -, rfl⟩ := step_job enabled
      unfold react
      split <;> exact Nat.le_refl _
  | returns =>
      obtain ⟨_, -, rfl⟩ := Option.map_eq_some_iff.mp enabled
      exact Nat.le_refl _
  | throws reason =>
      obtain ⟨_, -, rfl⟩ := Option.map_eq_some_iff.mp enabled
      exact Nat.le_refl _
  | settles call o =>
      simp only [step, Option.ite_none_right_eq_some, Option.some_inj] at enabled
      rw [← enabled.2]

theorem made_later {n m call : Nat} (later : n ≤ m) (made : call < (run.state n).calls) :
    call < (run.state m).calls :=
  run.lasts (P := fun s => call < s.calls) later
    (fun _ _ _ _ acts made => Nat.lt_of_lt_of_le made (calls_le (run.next_some acts))) made

/-- Once what it waits for has settled, the job of a promise is run. -/
theorem Fair.reaction {n m : Nat} {d p : InsertPromise} {onFulfilled onRejected : Option InsertHandler}
    {o : InsertOutcome τ} (fair : Fair run)
    (waits : (run.state n).promises.state d = .pending (.reaction p onFulfilled onRejected)) (later : n ≤ m)
    (settled : (run.state m).promises.state p = .settled o) :
    ∃ k, n ≤ k ∧ ∃ o : InsertOutcome τ, match Promises.handler onFulfilled onRejected o with
      | none => (run.state k).promises.state d = .settled o
      | some .swallow => (run.state k).promises.state d = .settled (.fulfilled none)
      | some (.fn call) => (run.state k).executing = some (call, d) := by
  obtain ⟨k, after, still, a, acts, rfl, head⟩ := runs.reaction_runs run fair.jobs waits later settled
  refine ⟨k + 1, by omega, ?_⟩
  obtain ⟨p', adopts, -⟩ | ⟨p', onFulfilled', onRejected', o', waits', -, effect⟩ :=
    job_effect (run.next_some acts) head
  · simp [still] at adopts
  · obtain ⟨-, rfl, rfl⟩ : p = p' ∧ onFulfilled = onFulfilled' ∧ onRejected = onRejected' := by
      simpa [still] using waits'
    exact ⟨o', effect⟩

/-- The outcome that a promise waits for without handlers becomes its own. -/
theorem Fair.passes {n m : Nat} {d p : InsertPromise} {o : InsertOutcome τ} (fair : Fair run)
    (waits : (run.state n).promises.state d = .pending (.reaction p none none)) (later : n ≤ m)
    (settled : (run.state m).promises.state p = .settled o) :
    ∃ k, n ≤ k ∧ ∃ o, (run.state k).promises.state d = .settled o := by
  obtain ⟨k, after, o', effect⟩ := fair.reaction waits later settled
  exact ⟨k, after, by cases o' <;> exact ⟨_, effect⟩⟩

theorem Inv.settles_effect {call : Nat} {o : InsertOutcome τ} (inv : Inv s outcomes)
    (enabled : step s (.settles call o) = some s') : s'.promises.state (.fn call) = .settled o := by
  simp only [step, Option.ite_none_right_eq_some, Option.some_inj] at enabled
  obtain ⟨awaited, rfl⟩ := enabled
  simp [Promises.state_settle (inv.awaited_fn awaited)]

/-- The promise that a function has returned settles. -/
theorem Fair.fn_settles {n call : Nat} (fair : Fair run) (made : call < (run.state n).calls)
    (follows : (run.state n).promises.state (.run call) = .pending (.reaction (.fn call) none none)) :
    ∃ m, n ≤ m ∧ ∃ o, (run.state m).promises.state (.fn call) = .settled o := by
  obtain ⟨outcomes, inv⟩ := inv_at run n
  obtain ⟨ended, calledTo, -⟩ := inv.turn.events
  cases inv.run call made with
  | following _ called settles =>
      rcases Nat.lt_or_eq_of_le (calledTo call called) with earlier | rfl
      · exact ⟨n, Nat.le_refl n, _, settles _ ((ended _ _).mpr (List.getElem?_eq_getElem earlier))⟩
      · cases inv.turn with
        | idle _ _ history => simp [history, mem_turns_called] at called
        | executing _ _ _ code => simp [code] at follows
        | awaited _ one _ =>
            obtain ⟨m, later, o, acts⟩ := fair.settles n outcomes.length (by simp [one])
            obtain ⟨_, inv'⟩ := inv_at run m
            exact ⟨m + 1, by omega, o, inv'.settles_effect (run.next_some acts)⟩
  | waiting waits => simp [waits] at follows
  | executing runs => simp [(inv.turn.code_runs runs).2.2.1] at follows
  | adopting adopts => simp [adopts] at follows
  | settled settled => simp [settled] at follows

/-! The promise `run` of a call settles, from each stage on. -/

theorem Fair.from_following {n call : Nat} (fair : Fair run) (made : call < (run.state n).calls)
    (follows : (run.state n).promises.state (.run call) = .pending (.reaction (.fn call) none none)) :
    ∃ m, n ≤ m ∧ ∃ o, (run.state m).promises.state (.run call) = .settled o := by
  obtain ⟨m, later, o, settled⟩ := fair.fn_settles made follows
  exact fair.passes follows later settled

/-- A promise that adopts another one comes to wait for it. -/
theorem Fair.adopts {n : Nat} {d p : InsertPromise} (fair : Fair run)
    (adopts : (run.state n).promises.state d = .pending (.adoption p)) :
    ∃ m, n ≤ m ∧ (run.state m).promises.state d = .pending (.reaction p none none) := by
  obtain ⟨k, later, still, a, acts, rfl, head⟩ := runs.adoption_runs run fair.jobs adopts
  refine ⟨k + 1, by omega, ?_⟩
  obtain ⟨p', adopts', effect⟩ | ⟨p', _, _, _, waits, -⟩ := job_effect (run.next_some acts) head
  · obtain rfl : p = p' := by simpa [still] using adopts'
    exact effect
  · simp [still] at waits

theorem Fair.from_adopting {n call : Nat} (fair : Fair run) (made : call < (run.state n).calls)
    (adopts : (run.state n).promises.state (.run call) = .pending (.adoption (.fn call))) :
    ∃ m, n ≤ m ∧ ∃ o, (run.state m).promises.state (.run call) = .settled o := by
  obtain ⟨k, later, follows⟩ := fair.adopts adopts
  obtain ⟨m, after, settled⟩ := fair.from_following (made_later later made) follows
  exact ⟨m, Nat.le_trans later after, settled⟩

/-- Code on the stack stays there until it returns or throws. -/
theorem executing_kept {a : InsertAction τ} {running : Nat × InsertPromise} (enabled : step s a = some s')
    (executing : s.executing = some running) (goes : ¬ (a = .returns ∨ ∃ reason, a = .throws reason)) :
    s'.executing = some running := by
  cases a with
  | call =>
      obtain rfl := Option.some.inj enabled
      exact executing
  | job => simp [(step_job enabled).1] at executing
  | returns => exact absurd (.inl rfl) goes
  | throws reason => exact absurd (.inr ⟨reason, rfl⟩) goes
  | settles call o =>
      simp only [step, Option.ite_none_right_eq_some, Option.some_inj] at enabled
      rw [← enabled.2]
      exact executing

theorem Fair.from_executing {n call : Nat} (fair : Fair run) (made : call < (run.state n).calls)
    (executing : (run.state n).executing = some (call, .run call)) :
    ∃ m, n ≤ m ∧ ∃ o, (run.state m).promises.state (.run call) = .settled o := by
  have leaves : ∃ m, n ≤ m ∧ ∃ a, run.act m = some a ∧ (a = .returns ∨ ∃ reason, a = .throws reason) := by
    obtain ⟨m, later, acts | ⟨reason, acts⟩⟩ := fair.returns n (by simp [executing])
    · exact ⟨m, later, _, acts, .inl rfl⟩
    · exact ⟨m, later, _, acts, .inr ⟨reason, rfl⟩⟩
  obtain ⟨k, later, still, a, acts, goes⟩ := run.first
    (P := fun s => s.executing = some (call, .run call)) (A := fun _ a => a = .returns ∨ ∃ reason, a = .throws reason)
    (fun k a acts stays executing => executing_kept (run.next_some acts) executing stays) executing leaves
  have made' := made_later (Nat.le_succ_of_le later) made
  have enabled := run.next_some acts
  obtain ⟨_, inv⟩ := inv_at run k
  have code := (inv.turn.code_runs still).2.2.1
  obtain rfl | ⟨reason, rfl⟩ := goes
  · obtain ⟨m, after, settled⟩ := fair.from_adopting (n := k + 1) made' (by
      obtain ⟨_, runs, made⟩ := Option.map_eq_some_iff.mp enabled
      obtain rfl := Option.some.inj (still.symm.trans runs)
      simp [← made, Promises.state_adopt code])
    exact ⟨m, by omega, settled⟩
  · refine ⟨k + 1, by omega, .rejected reason, ?_⟩
    obtain ⟨_, runs, made⟩ := Option.map_eq_some_iff.mp enabled
    obtain rfl := Option.some.inj (still.symm.trans runs)
    simp [← made, Promises.state_settle code]

/-- The call before has left its link, so the function gets its turn. -/
theorem Fair.from_waiting {n call : Nat} {o : InsertOutcome τ} (fair : Fair run)
    (made : call < (run.state n).calls)
    (waits : (run.state n).promises.state (.run call) =
      .pending (.reaction (.chain call) (some (.fn call)) (some (.fn call))))
    (settled : (run.state n).promises.state (.chain call) = .settled o) :
    ∃ m, n ≤ m ∧ ∃ o, (run.state m).promises.state (.run call) = .settled o := by
  obtain ⟨k, later, o', effect⟩ := fair.reaction waits (Nat.le_refl n) settled
  have executing : (run.state k).executing = some (call, .run call) := by
    cases o' <;> exact effect
  obtain ⟨m, after, settled⟩ := fair.from_executing (made_later later made) executing
  exact ⟨m, Nat.le_trans later after, settled⟩

/-- The promise `run` of a call settles once the link it waits for has. -/
theorem Fair.run_settles {n call : Nat} {o : InsertOutcome τ} (fair : Fair run)
    (made : call < (run.state n).calls) (link : (run.state n).promises.state (.chain call) = .settled o) :
    ∃ m, n ≤ m ∧ ∃ o, (run.state m).promises.state (.run call) = .settled o := by
  obtain ⟨_, inv⟩ := inv_at run n
  cases inv.run call made with
  | waiting waits _ => exact fair.from_waiting made waits link
  | executing executing => exact fair.from_executing made executing
  | adopting adopts => exact fair.from_adopting made adopts
  | following follows => exact fair.from_following made follows
  | settled settled => exact ⟨n, Nat.le_refl n, _, settled⟩

/-- However the call has ended, the link that it leaves is fulfilled. -/
theorem Fair.link_settles {n call : Nat} {o : InsertOutcome τ} (fair : Fair run)
    (made : call < (run.state n).calls) (ended : (run.state n).promises.state (.run call) = .settled o) :
    ∃ m, n ≤ m ∧ (run.state m).promises.state (.chain (call + 1)) = .settled (.fulfilled none) := by
  obtain ⟨_, inv⟩ := inv_at run n
  cases inv.chain call made with
  | settled _ link => exact ⟨n, Nat.le_refl n, link⟩
  | waiting waits =>
      obtain ⟨k, later, o', effect⟩ := fair.reaction waits (Nat.le_refl n) ended
      exact ⟨k, later, by cases o' <;> exact effect⟩

/-- Every call gets its turn, by induction along the chain. -/
theorem Fair.every_run_settles {n call : Nat} (fair : Fair run) (made : call < (run.state n).calls) :
    ∃ m, n ≤ m ∧ ∃ o, (run.state m).promises.state (.run call) = .settled o := by
  induction call with
  | zero =>
      obtain ⟨_, inv⟩ := inv_at run n
      exact fair.run_settles made inv.first
  | succ call ih =>
      obtain ⟨m, later, o, ended⟩ := ih (by omega)
      obtain ⟨k, after, link⟩ := fair.link_settles (made_later later (by omega)) ended
      obtain ⟨l, last, settled⟩ := fair.run_settles (made_later (Nat.le_trans later after) made) link
      exact ⟨l, by omega, settled⟩

theorem Fair.call_settles {n call : Nat} (fair : Fair run) (made : call < (run.state n).calls) :
    ∃ m, n ≤ m ∧ ∃ o, (run.state m).outcome call = some o := by
  have follow : ∀ k, call < (run.state k).calls →
      (run.state k).promises.state (.returned call) = .pending (.reaction (.run call) none none) →
      ∃ m, k ≤ m ∧ ∃ o, (run.state m).outcome call = some o := by
    intro k made follows
    obtain ⟨m, later, o, ended⟩ := fair.every_run_settles made
    obtain ⟨l, after, o', settled⟩ := fair.passes follows later ended
    exact ⟨l, after, o', by simp [outcome, settled]⟩
  obtain ⟨_, inv⟩ := inv_at run n
  cases inv.returned call made with
  | adopting adopts =>
      obtain ⟨k, later, follows⟩ := fair.adopts adopts
      obtain ⟨m, after, settled⟩ := follow k (made_later later made) follows
      exact ⟨m, Nat.le_trans later after, settled⟩
  | following follows => exact follow n made follows
  | settled _ settled => exact ⟨n, Nat.le_refl n, _, by rw [outcome, settled]; rfl⟩

/-! ## Runs that come to rest -/

/-- No job is left, and no function has still to end. -/
def Rests (s : InsertChain τ) : Prop := s.promises.jobs = [] ∧ s.executing = none ∧ s.awaited = []

theorem awaited_kept {a : InsertAction τ} {call : Nat} (enabled : step s a = some s') (awaited : call ∈ s.awaited)
    (other : ∀ o, a ≠ .settles call o) : call ∈ s'.awaited := by
  cases a with
  | call =>
      obtain rfl := Option.some.inj enabled
      exact awaited
  | job =>
      obtain ⟨-, called, promises, -, rfl⟩ := step_job enabled
      unfold react
      split <;> exact awaited
  | returns =>
      obtain ⟨_, -, rfl⟩ := Option.map_eq_some_iff.mp enabled
      exact List.mem_append_left _ awaited
  | throws reason =>
      obtain ⟨_, -, rfl⟩ := Option.map_eq_some_iff.mp enabled
      exact awaited
  | settles call' o =>
      simp only [step, Option.ite_none_right_eq_some, Option.some_inj] at enabled
      rw [← enabled.2]
      refine List.mem_filter.mpr ⟨awaited, ?_⟩
      simp only [ne_eq, decide_not, Bool.not_eq_true', decide_eq_false_iff_not]
      rintro rfl
      exact other o rfl

/-- A run is fair when it comes to rest: what it left undone would still be there. -/
theorem fair_of_rests {bound : Nat} (rests : ∀ n, bound ≤ n → (run.state n).Rests) : Fair run where
  jobs n queued := by
    by_contra never
    obtain ⟨d, due⟩ := List.exists_mem_of_ne_nil _ queued
    have still := run.lasts (P := fun s => d ∈ s.promises.jobs) (Nat.le_max_left n bound)
      (fun k later _ a acts due => by
        obtain ⟨added, jobs⟩ := (runs.code (run.next_some acts) fun job => never ⟨k, later, a, acts, job⟩).jobs
        rw [jobs]
        exact List.mem_append_left added due) due
    simp [(rests _ (Nat.le_max_right n bound)).1] at still
  returns n executing := by
    by_contra never
    obtain ⟨running, executing⟩ := Option.ne_none_iff_exists'.mp executing
    have still := run.lasts (P := fun s => s.executing = some running) (Nat.le_max_left n bound)
      (fun k later _ a acts executing => executing_kept (run.next_some acts) executing fun goes => never ⟨k, later, by
        rw [acts]
        exact goes.imp (congrArg some) fun ⟨reason, throws⟩ => ⟨reason, congrArg some throws⟩⟩) executing
    simp [(rests _ (Nat.le_max_right n bound)).2.1] at still
  settles n call awaited := by
    by_contra never
    have still := run.lasts (P := fun s => call ∈ s.awaited) (Nat.le_max_left n bound)
      (fun k later _ a acts awaited => awaited_kept (run.next_some acts) awaited fun o settles =>
        never ⟨k, later, o, acts.trans (congrArg some settles)⟩) awaited
    simp [(rests _ (Nat.le_max_right n bound)).2.2] at still

/-- Nothing that a fair run does sooner or later is refused when its time has come. -/
theorem enabled (s : InsertChain τ) :
    (s.executing = none → s.promises.jobs ≠ [] → (step s .job).isSome = true) ∧
      (s.executing ≠ none → (step s .returns).isSome = true ∧ ∀ reason, (step s (.throws reason)).isSome = true) ∧
      ∀ call ∈ s.awaited, ∀ o, (step s (.settles call o)).isSome = true := by
  refine ⟨fun idle queued => ?_, fun executing => ?_, fun call awaited o => ?_⟩
  · simpa [step, idle] using Promises.runJob_isSome queued
  · simpa [step, Option.isSome_iff_ne_none] using executing
  · simp [step, awaited]

/-- The functions run one at a time, in the order of the calls, each once, and the promise
    of every call settles with the outcome of its function, whatever the others did. -/
theorem inserts_serialized {τ : Type} :
    (∀ s : InsertChain τ, Machine.Reachable step start s → s.Serialized) ∧
      ∀ run : Machine.Endless step (start : InsertChain τ), Fair run → ∀ n call, call < (run.state n).calls →
        ∃ m, n ≤ m ∧ ∃ o, (run.state m).outcome call = some o ∧ (run.state m).started.count call = 1 ∧
          .ended call o ∈ (run.state m).history := by
  refine ⟨fun s => serialized, fun run fair n call made => ?_⟩
  obtain ⟨m, later, o, settled⟩ := fair.call_settles made
  obtain ⟨_, inv⟩ := inv_at run m
  exact ⟨m, later, o, settled, inv.started_once settled⟩

/-- Two calls; the function of the first rejects, that of the second does not. -/
def rejectedFirst : List (InsertAction Nat) :=
  [.call, .call, .job, .returns, .job, .job, .job, .settles 0 (.rejected (some 7)), .job, .job, .job, .job, .returns,
    .job, .settles 1 (.fulfilled (some 8)), .job, .job, .job]

theorem rejectedFirst_performed :
    (Machine.perform step (start : InsertChain Nat) rejectedFirst).any (fun (_, s) =>
      s.promises.jobs = [] && s.executing = none && s.awaited = [] && s.calls = 2 &&
        s.outcome 0 = some (.rejected (some 7)) && s.outcome 1 = some (.fulfilled (some 8))) = true := by
  decide +kernel

theorem rejectedFirst_serialized :
    ∃ run : Machine.Endless step (start : InsertChain Nat), ∃ n, (run.state n).outcome 0 = some (.rejected (some 7)) ∧
      (run.state n).Serialized ∧ ∃ m, n ≤ m ∧ ∃ o, (run.state m).outcome 1 = some o ∧
        (run.state m).started.count 1 = 1 ∧ .ended 1 o ∈ (run.state m).history := by
  obtain ⟨ts, t, reached, performed⟩ := Machine.run_of_perform rejectedFirst_performed
  obtain ⟨run, -, ends⟩ := Machine.Endless.exists_of_run reached
  simp only [Bool.and_eq_true, decide_eq_true_eq] at performed
  obtain ⟨⟨⟨⟨⟨jobs, executing⟩, awaited⟩, calls⟩, first⟩, -⟩ := performed
  have rests : ∀ n, ts.length ≤ n → (run.state n).Rests := fun n later => by
    rw [(ends n later).1]
    exact ⟨jobs, executing, awaited⟩
  have last : run.state ts.length = t := (ends _ (Nat.le_refl _)).1
  refine ⟨run, ts.length, by rw [last, first], inserts_serialized.1 _ (run.reachable _),
    inserts_serialized.2 run (fair_of_rests rests) ts.length 1 ?_⟩
  rw [last, calls]
  exact Nat.one_lt_two

end InsertChain

end BetterBullBoard
