import BetterBullBoard.Job.OneKey

/-! # Batches of one run's events

The deduplication of a call keeps the last event of a batch; the conflict clause
merges by its own rules (a terminal status sticks, empty tags keep the old ones).
Replaying the same events one at a time applies only the second rule. The two
leave the same row exactly when keeping the last event of each batch loses
neither the last terminal status nor the last tags.
-/

namespace BetterBullBoard

/-- The last element satisfying `p`. -/
def lastWith {α : Type} (p : α → Bool) (l : List α) : Option α := (l.filter p).getLast?

theorem lastWith_concat {α : Type} (p : α → Bool) (l : List α) (a : α) :
    lastWith p (l ++ [a]) = if p a then some a else lastWith p l := by
  by_cases h : p a <;> simp [lastWith, List.filter_append, h]

variable {J : Type}

def hasTags (tags : Option (List String)) : Bool := 0 < (tags.map List.length).getD 0

/-- The tags a run proposes, with the column default. -/
def JobRunInsert.excludedTags (run : JobRunInsert J) : Option (List String) :=
  (excluded {} 0 run).tags

/-- A stored row, if any, followed by the events: the statuses in order. -/
def statusHistory (stored : Option (JobRun J)) (runs : List (JobRunInsert J)) : List JobStatus :=
  stored.toList.map (·.status) ++ runs.map (·.status)

def tagsHistory (stored : Option (JobRun J)) (runs : List (JobRunInsert J)) : List (Option (List String)) :=
  stored.toList.map (·.tags) ++ runs.map (·.excludedTags)

/-- What merging a history one by one ends with: its last terminal status, or
    its last status if none is terminal. -/
def settledStatus (history : List JobStatus) : Option JobStatus :=
  (lastWith isTerminalStatus history).or history.getLast?

/-- The last tags of a history, or its first value if there are none. -/
def settledTags (history : List (Option (List String))) : Option (Option (List String)) :=
  (lastWith hasTags history).or history.head?

variable [DecidableEq J]

open JobRunsTable

/-- The status of a merged row continues the history. -/
theorem mergeInto_status (stored : Option (JobRun J)) (ctx : UpsertContext) (id : Nat) (run : JobRunInsert J)
    (history : List JobStatus) (settled : stored.map (·.status) = settledStatus history) :
    some (mergeInto stored (excluded ctx id run)).status = settledStatus (history ++ [run.status]) := by
  have status : (excluded ctx id run).status = run.status := rfl
  simp only [settledStatus, lastWith_concat]
  cases stored with
  | none =>
      have empty : history = [] := by
        simp only [settledStatus, Option.map_none] at settled
        have := (Option.or_eq_none_iff.mp settled.symm).2
        simpa using this
      subst empty
      by_cases h : isTerminalStatus run.status <;> simp [mergeInto, status, h, lastWith]
  | some r =>
      simp only [mergeInto, onConflict_eq, conflictSet, statusUpdate, status]
      by_cases h : isTerminalStatus run.status
      · simp [h]
      · simp only [settledStatus, Option.map_some] at settled
        cases last : lastWith isTerminalStatus history with
        | some s =>
            have hs : isTerminalStatus s := (List.mem_filter.mp (List.mem_of_getLast? last)).2
            simp only [last, Option.some_or, Option.some.injEq] at settled
            simp [h, settled, hs]
        | none =>
            have opened : isTerminalStatus r.status = false := by
              simp only [last, Option.none_or] at settled
              have member := List.mem_of_getLast? settled.symm
              have := List.filter_eq_nil_iff.mp (List.getLast?_eq_none_iff.mp last) _ member
              simpa using this
            simp [h, opened]

/-- So do its tags. -/
theorem mergeInto_tags (stored : Option (JobRun J)) (ctx : UpsertContext) (id : Nat) (run : JobRunInsert J)
    (history : List (Option (List String))) (settled : stored.map (·.tags) = settledTags history) :
    some (mergeInto stored (excluded ctx id run)).tags = settledTags (history ++ [run.excludedTags]) := by
  have tags : (excluded ctx id run).tags = run.excludedTags := rfl
  simp only [settledTags, lastWith_concat, List.head?_append]
  cases stored with
  | none =>
      have empty : history = [] := by
        simp only [settledTags, Option.map_none] at settled
        have := (Option.or_eq_none_iff.mp settled.symm).2
        simpa using this
      subst empty
      by_cases h : hasTags run.excludedTags <;> simp [mergeInto, tags, h, lastWith]
  | some r =>
      simp only [mergeInto, onConflict_eq, conflictSet, tagsUpdate, tags]
      by_cases h : hasTags run.excludedTags
      · have := h
        simp only [hasTags, decide_eq_true_eq] at this
        simp [h, this]
      · have := h
        simp only [hasTags, decide_eq_true_eq] at this
        simp only [this, if_false, h, Bool.false_eq_true]
        simp only [Option.map_some, settledTags] at settled
        rw [settled]
        cases history with
        | nil => simp [lastWith] at settled
        | cons _ _ => simp

/-- Merging the events of one run one by one takes every plain column from the
    last event, and settles status and tags. -/
structure Settled (now : Int) (stored : Option (JobRun J)) (runs : List (JobRunInsert J)) (r : JobRun J) :
    Prop where
  plain : ∃ last, runs.getLast? = some last ∧
    r = { excluded { currentTimestamp := now } r.id last with status := r.status, tags := r.tags }
  status : some r.status = settledStatus (statusHistory stored runs)
  tags : some r.tags = settledTags (tagsHistory stored runs)

/-- The events of one run, each with the call that brings it. -/
structure Events (now : Int) (k : String × String × Int) (calls : List (UpsertContext × JobRunInsert J)) :
    Prop where
  target : ∀ call ∈ calls, call.2.target = some k
  /-- The default of `created_at` is not used, or the clock stands still. -/
  clock : ∀ call ∈ calls, call.2.createdAt.getD call.1.currentTimestamp = call.2.createdAt.getD now

def replay (t : JobRunsTable J) (calls : List (UpsertContext × JobRunInsert J)) : JobRunsTable J :=
  calls.foldl (fun t call => t.upsertRow call.1 call.2) t

theorem mergeInto_plain (stored : Option (JobRun J)) (ctx : UpsertContext) (id : Nat) (run : JobRunInsert J) :
    mergeInto stored (excluded ctx id run) =
      { excluded ctx (mergeInto stored (excluded ctx id run)).id run with
        status := (mergeInto stored (excluded ctx id run)).status
        tags := (mergeInto stored (excluded ctx id run)).tags } := by
  cases stored with
  | none => rfl
  | some r =>
      simp only [mergeInto, onConflict_eq, conflictSet, conflictUpdateSet]
      rfl

theorem replay_settled {now : Int} {k} (t : JobRunsTable J)
    {calls : List (UpsertContext × JobRunInsert J)} (events : Events now k calls) (nonempty : calls ≠ []) :
    ∃ r, (replay t calls).rowAt k = some r ∧ Settled now (t.rowAt k) (calls.map (·.2)) r := by
  induction calls using List.reverseRecOn with
  | nil => exact absurd rfl nonempty
  | append_singleton calls call ih =>
      obtain ⟨ctx, run⟩ := call
      have target : run.target = some k := events.target (ctx, run) (by simp)
      have clock := events.clock (ctx, run) (by simp)
      have earlier : Events now k calls :=
        ⟨fun c hc => events.target c (by simp [hc]), fun c hc => events.clock c (by simp [hc])⟩
      -- the row the earlier events left, whether or not there were any
      have histories : ((replay t calls).rowAt k).map (·.status) =
            settledStatus (statusHistory (t.rowAt k) (calls.map (·.2))) ∧
          ((replay t calls).rowAt k).map (·.tags) =
            settledTags (tagsHistory (t.rowAt k) (calls.map (·.2))) := by
        by_cases empty : calls = []
        · subst empty
          cases h : t.rowAt k with
          | none => simp [replay, h, settledStatus, settledTags, statusHistory, tagsHistory, lastWith]
          | some r =>
              by_cases terminal : isTerminalStatus r.status <;> by_cases tagged : hasTags r.tags <;>
                simp [replay, h, settledStatus, settledTags, statusHistory, tagsHistory, lastWith,
                  terminal, tagged]
        · obtain ⟨r, stored, settled⟩ := ih earlier empty
          simp only [stored, Option.map_some]
          exact ⟨settled.status, settled.tags⟩
      have step : replay t (calls ++ [(ctx, run)]) = (replay t calls).upsertRow ctx run := by
        simp [replay]
      refine ⟨_, by rw [step]; exact rowAt_upsertRow ctx _ target, ?_, ?_, ?_⟩
      · refine ⟨run, by simp, ?_⟩
        have same : ∀ id, excluded ctx id run = excluded { currentTimestamp := now } id run := by
          intro id
          simp only [excluded, clock]
        rw [← same]
        exact mergeInto_plain _ ctx _ run
      · simpa only [statusHistory, List.map_append, List.map_cons, List.map_nil, List.append_assoc] using
          mergeInto_status _ ctx _ run _ histories.1
      · simpa only [tagsHistory, List.map_append, List.map_cons, List.map_nil, List.append_assoc] using
          mergeInto_tags _ ctx _ run _ histories.2

/-- All columns but the generated id. -/
def sameStored (a b : Option (JobRun J)) : Prop :=
  a.map (fun r => { r with id := 0 }) = b.map (fun r => { r with id := 0 })

omit [DecidableEq J] in
theorem Settled.same_iff {now : Int} {stored : Option (JobRun J)} {runs runs' : List (JobRunInsert J)}
    {r r' : JobRun J} (h : Settled now stored runs r) (h' : Settled now stored runs' r')
    (last : runs.getLast? = runs'.getLast?) :
    sameStored (some r) (some r') ↔ r.status = r'.status ∧ r.tags = r'.tags := by
  obtain ⟨run, hrun, eq⟩ := h.plain
  obtain ⟨run', hrun', eq'⟩ := h'.plain
  obtain rfl : run = run' := Option.some.inj (hrun.symm.trans (last.trans hrun'))
  simp only [sameStored, Option.map_some, Option.some.injEq]
  constructor
  · intro same
    have status := congrArg (·.status) same
    have tags := congrArg (·.tags) same
    exact ⟨status, tags⟩
  · rintro ⟨status, tags⟩
    rw [eq, eq']
    simp only [status, tags, excluded]

/-- Falling back on a value of the history itself: two settlements agree exactly
    when the preferred parts do, and the fallbacks where there is no such part. -/
theorem settled_eq_iff {α : Type} {p : α → Bool} {a b : List α} {x y : Option α}
    (hx : ∀ v, x = some v → v ∈ a) (hy : ∀ v, y = some v → v ∈ b) :
    (lastWith p a).or x = (lastWith p b).or y ↔
      lastWith p a = lastWith p b ∧ (lastWith p a = none → x = y) := by
  have plain : ∀ l : List α, lastWith p l = none → ∀ v ∈ l, p v = false := by
    intro l hl v hv
    have := List.filter_eq_nil_iff.mp (List.getLast?_eq_none_iff.mp hl) v hv
    simpa using this
  have found : ∀ (l : List α) v, lastWith p l = some v → p v = true := fun l v h =>
    (List.mem_filter.mp (List.mem_of_getLast? h)).2
  cases ha : lastWith p a with
  | none =>
      cases hb : lastWith p b with
      | none => simp
      | some v =>
          simp only [Option.none_or, Option.some_or, reduceCtorEq, false_and, iff_false]
          intro eq
          have := plain a ha v (hx v eq)
          simp [found b v hb] at this
  | some u =>
      cases hb : lastWith p b with
      | none =>
          simp only [Option.none_or, Option.some_or, reduceCtorEq, false_and, iff_false]
          intro eq
          have := plain b hb u (hy u eq.symm)
          simp [found a u ha] at this
      | some v => simp

/-- Keeping the last event of each batch loses neither the last terminal status
    nor the last tags; where there are no tags at all, the first event kept has
    the tags of the first event. -/
structure LosesNothing (stored : Option (JobRun J)) (batches : List (List (JobRunInsert J))) : Prop where
  status : lastWith isTerminalStatus (statusHistory stored batches.flatten) =
    lastWith isTerminalStatus (statusHistory stored (batches.filterMap List.getLast?))
  tags : lastWith hasTags (tagsHistory stored batches.flatten) =
    lastWith hasTags (tagsHistory stored (batches.filterMap List.getLast?))
  untagged : lastWith hasTags (tagsHistory stored batches.flatten) = none →
    (tagsHistory stored batches.flatten).head? =
      (tagsHistory stored (batches.filterMap List.getLast?)).head?

/-- Calls bringing events of one run, all in retention. -/
structure Delivery (now : Int) (k : String × String × Int)
    (calls : List (UpsertContext × List (JobRunInsert J))) : Prop where
  target : ∀ call ∈ calls, ∀ run ∈ call.2, run.target = some k
  within : ∀ call ∈ calls, ∀ run ∈ call.2, isWithinRetention run (getRetentionCutoff call.1)
  /-- The default of `created_at` is not used, or the clock stands still. -/
  clock : ∀ call ∈ calls, ∀ run ∈ call.2,
    run.createdAt.getD call.1.currentTimestamp = run.createdAt.getD now

/-- The last event of each call, with its call. -/
def survivors (calls : List (UpsertContext × List (JobRunInsert J))) :
    List (UpsertContext × JobRunInsert J) :=
  calls.filterMap fun call => call.2.getLast?.map (call.1, ·)

omit [DecidableEq J] in
theorem survivors_runs (calls : List (UpsertContext × List (JobRunInsert J))) :
    (survivors calls).map (·.2) = (calls.map (·.2)).filterMap List.getLast? := by
  simp only [survivors, List.map_filterMap, List.filterMap_map, Option.map_map]
  congr 1
  funext call
  simp only [Function.comp_def]
  cases call.2.getLast? <;> rfl

omit [DecidableEq J] in
theorem Delivery.events {now : Int} {k} {calls : List (UpsertContext × List (JobRunInsert J))}
    (d : Delivery now k calls) : Events now k (survivors calls) := by
  have origin : ∀ c ∈ survivors calls, ∃ call ∈ calls, c.1 = call.1 ∧ c.2 ∈ call.2 := by
    intro c hc
    obtain ⟨call, hcall, eq⟩ := List.mem_filterMap.mp hc
    obtain ⟨run, hrun, rfl⟩ := Option.map_eq_some_iff.mp eq
    exact ⟨call, hcall, rfl, List.mem_of_getLast? hrun⟩
  constructor
  · intro c hc
    obtain ⟨call, hcall, -, member⟩ := origin c hc
    exact d.target call hcall _ member
  · intro c hc
    obtain ⟨call, hcall, ctx, member⟩ := origin c hc
    rw [ctx]
    exact d.clock call hcall _ member

theorem Delivery.upsertAll_eq {now : Int} {k} {calls : List (UpsertContext × List (JobRunInsert J))}
    (d : Delivery now k calls) (t : JobRunsTable J) : upsertAll calls t = replay t (survivors calls) := by
  induction calls generalizing t with
  | nil => rfl
  | cons call calls ih =>
      have rest : Delivery now k calls :=
        ⟨fun c hc => d.target c (List.mem_cons_of_mem _ hc), fun c hc => d.within c (List.mem_cons_of_mem _ hc),
          fun c hc => d.clock c (List.mem_cons_of_mem _ hc)⟩
      have kept : latest call.1 call.2 = call.2.getLast? := by
        rw [latest, List.filter_eq_self.mpr (d.within call List.mem_cons_self)]
      have first := upsert_one_key call.1 t (d.target call List.mem_cons_self)
      rw [kept] at first
      simp only [upsertAll, List.foldl_cons] at ih ⊢
      rw [first]
      cases last : call.2.getLast? with
      | none => simpa only [survivors, List.filterMap_cons, last, Option.map_none] using ih rest t
      | some run =>
          simpa only [survivors, List.filterMap_cons, last, Option.map_some, replay, List.foldl_cons] using
            ih rest (t.upsertRow call.1 run)

/-- Events of the example job, in one call or one call each. -/
def oneBatch (runs : List (JobRunInsert Unit)) : List (UpsertContext × List (JobRunInsert Unit)) := [({}, runs)]
def oneByOne (runs : List (JobRunInsert Unit)) : List (UpsertContext × List (JobRunInsert Unit)) :=
  runs.map fun run => ({}, [run])

end BetterBullBoard
