import BetterBullBoard.Repeats.ReconcileJobs

/-! # The batches of consecutive ticks

The module keeps one cursor for the process. Every call of `selectQueueBatch`
reads it and, when the list does not fit into one tick, moves it on.
-/

namespace BetterBullBoard

variable {maxQueuesPerTick : Nat} {queueNames : List String} {queueName : String}

/-- The cursor after some calls on one list. -/
def cursorAt (maxQueuesPerTick : Nat) (queueNames : List String) (queueCursor calls : Nat) : Nat :=
  (fun cursor => (selectQueueBatch maxQueuesPerTick queueNames cursor).2)^[calls] queueCursor

/-- What the next call selects. -/
def selectionAt (maxQueuesPerTick : Nat) (queueNames : List String) (queueCursor calls : Nat) : List String :=
  (selectQueueBatch maxQueuesPerTick queueNames (cursorAt maxQueuesPerTick queueNames queueCursor calls)).1

theorem cursorAt_add (queueCursor i j : Nat) :
    cursorAt maxQueuesPerTick queueNames queueCursor (i + j) =
      cursorAt maxQueuesPerTick queueNames (cursorAt maxQueuesPerTick queueNames queueCursor i) j := by
  rw [cursorAt, Nat.add_comm, Function.iterate_add_apply]
  rfl

theorem selectionAt_add (queueCursor i j : Nat) :
    selectionAt maxQueuesPerTick queueNames queueCursor (i + j) =
      selectionAt maxQueuesPerTick queueNames (cursorAt maxQueuesPerTick queueNames queueCursor i) j := by
  rw [selectionAt, cursorAt_add]
  rfl

/-- The cursor comes round to every name, wherever it starts. -/
theorem exists_selection (positive : 0 < maxQueuesPerTick) (tracked : queueName ∈ queueNames) (named : queueName ≠ "")
    (queueCursor : Nat) :
    ∃ i < RoundRobin.rounds queueNames.length maxQueuesPerTick,
      queueName ∈ selectionAt maxQueuesPerTick queueNames queueCursor i := by
  cases Nat.lt_or_ge maxQueuesPerTick queueNames.length with
  | inr all =>
      have nonempty := List.length_pos_of_mem tracked
      refine ⟨0, Nat.div_pos (by omega) positive, ?_⟩
      simpa [selectionAt, selectQueueBatch, all] using tracked
  | inl cut =>
      have moves : (fun cursor => (selectQueueBatch maxQueuesPerTick queueNames cursor).2) =
          RoundRobin.advance maxQueuesPerTick queueNames.length := by
        funext cursor
        simp [selectQueueBatch, Nat.not_le.mpr cut]
      obtain ⟨i, early, inside⟩ := RoundRobin.exists_window positive tracked queueCursor
      refine ⟨i, early, ?_⟩
      rw [selectionAt, cursorAt, moves]
      simpa [selectQueueBatch, Nat.not_le.mpr cut, named] using inside

/-- A call selects no more names than a tick may have. -/
theorem length_selectQueueBatch_le (queueCursor : Nat) :
    (selectQueueBatch maxQueuesPerTick queueNames queueCursor).1.length ≤ maxQueuesPerTick := by
  cases Nat.lt_or_ge maxQueuesPerTick queueNames.length with
  | inr all => simp [selectQueueBatch, all]
  | inl cut =>
      have window := RoundRobin.length_window_le maxQueuesPerTick queueNames queueCursor
      simpa [selectQueueBatch, Nat.not_le.mpr cut] using (List.length_filter_le _ _).trans window

/-- It selects names of the list. -/
theorem selectQueueBatch_subset (queueCursor : Nat) :
    (selectQueueBatch maxQueuesPerTick queueNames queueCursor).1 ⊆ queueNames := by
  intro queueName selected
  cases Nat.lt_or_ge maxQueuesPerTick queueNames.length with
  | inr all => simpa [selectQueueBatch, all] using selected
  | inl cut =>
      have inside : queueName ∈ RoundRobin.window maxQueuesPerTick queueNames queueCursor := by
        simp only [selectQueueBatch, Nat.not_le.mpr cut, if_false] at selected
        exact (List.mem_filter.mp selected).1
      exact RoundRobin.mem_of_mem_window inside

theorem nodup_selectQueueBatch (distinct : queueNames.Nodup) (queueCursor : Nat) :
    (selectQueueBatch maxQueuesPerTick queueNames queueCursor).1.Nodup := by
  cases Nat.lt_or_ge maxQueuesPerTick queueNames.length with
  | inr all => simpa [selectQueueBatch, all] using distinct
  | inl cut =>
      have window : (RoundRobin.window maxQueuesPerTick queueNames queueCursor).Nodup :=
        RoundRobin.nodup_window distinct cut.le
      simpa [selectQueueBatch, Nat.not_le.mpr cut] using window.filter _

/-- Any `⌈n / m⌉` calls in a row select each name, and no call selects one twice. -/
theorem selectQueueBatch_fair (positive : 0 < maxQueuesPerTick) (distinct : queueNames.Nodup)
    (named : "" ∉ queueNames) (queueCursor start : Nat) :
    (∀ queueName ∈ queueNames, ∃ i, start ≤ i ∧
      i < start + RoundRobin.rounds queueNames.length maxQueuesPerTick ∧
      queueName ∈ selectionAt maxQueuesPerTick queueNames queueCursor i) ∧
    (selectionAt maxQueuesPerTick queueNames queueCursor start).Nodup := by
  constructor
  · intro queueName tracked
    have nonempty : queueName ≠ "" := fun empty => named (empty ▸ tracked)
    obtain ⟨i, early, selected⟩ := exists_selection positive tracked nonempty
      (cursorAt maxQueuesPerTick queueNames queueCursor start)
    refine ⟨start + i, by omega, by omega, ?_⟩
    rwa [selectionAt_add]
  · exact nodup_selectQueueBatch distinct _

/-- Two at a time out of five names, with a cursor left over from a longer list. -/
theorem selectQueueBatch_fair_five :
    (∀ queueName ∈ ["a", "b", "c", "d", "e"], ∃ i, 4 ≤ i ∧ i < 4 + 3 ∧
      queueName ∈ selectionAt 2 ["a", "b", "c", "d", "e"] 8 i) ∧
    (selectionAt 2 ["a", "b", "c", "d", "e"] 8 4).Nodup :=
  @selectQueueBatch_fair 2 ["a", "b", "c", "d", "e"] (by decide) (by decide) (by decide) 8 4

end BetterBullBoard
