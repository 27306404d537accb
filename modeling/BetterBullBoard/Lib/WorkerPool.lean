import Mathlib.Logic.Function.Basic
import Mathlib.Data.List.Nodup
import Mathlib.Data.List.Perm.Subperm
import BetterBullBoard.Lib.Machine

/-! # Workers that take items in order

A bounded number of workers take the items of a list in order and run a handler
for each, over shared state. Handlers of different items interleave. What holds
of every run follows from a local assertion for each handler that the steps of
the others respect; runs are built from runs of single handlers.
-/

namespace WorkerPool

variable {ι η σ α : Type}

structure Program (ι η σ α : Type) where
  items : List ι
  limit : Nat
  /-- Items a worker takes without running a handler. -/
  skips : ι → Bool
  start : η
  /-- The worker of the handler is free again; the handler may still act. -/
  ended : ι → η → Bool
  handle : ι → σ × η → α → Option (σ × η)

structure Pool (ι η σ : Type) where
  nextIndex : Nat := 0
  handlers : ι → Option η := fun _ => none
  shared : σ

inductive PoolAction (ι α : Type) where
  | next
  | handler (i : ι) (a : α)

namespace Program

variable (p : Program ι η σ α)

/-- A worker is busy with this item. -/
def busy (s : Pool ι η σ) (i : ι) : Bool :=
  match s.handlers i with
  | some h => !p.ended i h
  | none => false

def step [DecidableEq ι] (s : Pool ι η σ) : PoolAction ι α → Option (Pool ι η σ)
  | .next =>
      match p.items[s.nextIndex]? with
      | none => none
      | some i =>
          if p.items.countP (p.busy s) < min p.limit p.items.length then
            some { s with
              nextIndex := s.nextIndex + 1
              handlers := if p.skips i then s.handlers else Function.update s.handlers i (some p.start) }
          else none
  | .handler i a =>
      match s.handlers i with
      | none => none
      | some h => (p.handle i (s.shared, h) a).map fun r =>
          { s with handlers := Function.update s.handlers i (some r.2), shared := r.1 }

/-- Every item was taken and every worker is free. -/
def Complete (s : Pool ι η σ) : Prop :=
  s.nextIndex = p.items.length ∧ ∀ i ∈ p.items, p.busy s i = false

end Program

variable [DecidableEq ι] {p : Program ι η σ α} {s t : Pool ι η σ}
  {ts : List (Machine.Transition (Pool ι η σ) (PoolAction ι α))}

theorem step_cases {a : PoolAction ι α} (enabled : p.step s a = some t) :
    (∃ i, a = .next ∧ p.items[s.nextIndex]? = some i ∧
      t = { s with
        nextIndex := s.nextIndex + 1
        handlers := if p.skips i then s.handlers else Function.update s.handlers i (some p.start) }) ∨
    (∃ i b h r, a = .handler i b ∧ s.handlers i = some h ∧ p.handle i (s.shared, h) b = some r ∧
      t = { s with handlers := Function.update s.handlers i (some r.2), shared := r.1 }) := by
  cases a with
  | next =>
      simp only [Program.step] at enabled
      split at enabled
      · simp at enabled
      · rename_i i item
        split at enabled
        · exact .inl ⟨i, rfl, item, (Option.some.inj enabled).symm⟩
        · simp at enabled
  | handler i b =>
      simp only [Program.step] at enabled
      split at enabled
      · simp at enabled
      · rename_i h handler
        obtain ⟨r, handled, rfl⟩ := Option.map_eq_some_iff.mp enabled
        exact .inr ⟨i, b, h, r, rfl, handler, handled, rfl⟩

/-- A global invariant and a local assertion for each handler hold in every run,
    when each step keeps the invariant and its own assertion and respects those
    of the other handlers. -/
theorem invariant {I : σ → Prop} {L : ι → Option η → σ → Prop}
    (first : ∀ i ∈ p.items, ∀ m h, I m → L i h m → L i (some p.start) m)
    (own : ∀ i m h a r, I m → L i (some h) m → p.handle i (m, h) a = some r →
      I r.1 ∧ L i (some r.2) r.1 ∧ ∀ j, j ≠ i → ∀ k, L j k m → L j k r.1)
    (run : Machine.Run p.step s ts t) (start : I s.shared ∧ ∀ i, L i (s.handlers i) s.shared) :
    I t.shared ∧ ∀ i, L i (t.handlers i) t.shared := by
  refine run.invariant (I := fun s => I s.shared ∧ ∀ i, L i (s.handlers i) s.shared) ?_ start
  intro s a t holds enabled
  obtain ⟨shared, each⟩ := holds
  cases step_cases enabled with
  | inl taken =>
      obtain ⟨i, -, item, rfl⟩ := taken
      refine ⟨shared, fun j => ?_⟩
      dsimp only
      split
      · exact each j
      · cases Decidable.em (j = i) with
        | inl same =>
            subst same
            rw [Function.update_self]
            exact first j (List.mem_of_getElem? item) s.shared _ shared (each j)
        | inr other =>
            rw [Function.update_of_ne other]
            exact each j
  | inr handled =>
      obtain ⟨i, b, h, r, -, handler, handled, rfl⟩ := handled
      obtain ⟨kept, mine, others⟩ := own i s.shared h b r shared (handler ▸ each i) handled
      exact ⟨kept, (Function.forall_update_iff s.handlers fun j k => L j k r.1).mpr
        ⟨mine, fun j other => others j other _ (each j)⟩⟩

/-- The items taken so far have handlers. -/
def Started (p : Program ι η σ α) (s : Pool ι η σ) : Prop :=
  ∀ i ∈ p.items.take s.nextIndex, p.skips i = false → (s.handlers i).isSome

theorem started (run : Machine.Run p.step s ts t) (start : Started p s) : Started p t := by
  refine run.invariant (I := Started p) ?_ start
  intro s a t before enabled j member counted
  cases step_cases enabled with
  | inl taken =>
      obtain ⟨i, -, item, rfl⟩ := taken
      dsimp only at member ⊢
      rw [List.take_add_one, item, List.mem_append] at member
      split
      · rename_i skipped
        cases member with
        | inl old => exact before j old counted
        | inr new =>
            obtain rfl : j = i := by simpa using new
            rw [skipped] at counted
            cases counted
      · cases Decidable.em (j = i) with
        | inl same => simp [same]
        | inr other =>
            rw [Function.update_of_ne other]
            cases member with
            | inl old => exact before j old counted
            | inr new => exact absurd (by simpa using new) other
  | inr handled =>
      obtain ⟨i, b, h, r, -, -, -, rfl⟩ := handled
      dsimp only
      cases Decidable.em (j = i) with
      | inl same => simp [same]
      | inr other =>
          rw [Function.update_of_ne other]
          exact before j member counted

/-- When every item was taken, every item has a handler. -/
theorem handler_of_taken {m : σ} (run : Machine.Run p.step { shared := m } ts t) (taken : t.nextIndex = p.items.length)
    {i : ι} (item : i ∈ p.items) (counted : p.skips i = false) : ∃ h, t.handlers i = some h :=
  Option.isSome_iff_exists.mp (started run (by simp [Started]) i (by rw [taken, List.take_length]; exact item) counted)

theorem ended_of_complete {m : σ} (run : Machine.Run p.step { shared := m } ts t) (complete : p.Complete t) {i : ι}
    (item : i ∈ p.items) (counted : p.skips i = false) : ∃ h, t.handlers i = some h ∧ p.ended i h := by
  obtain ⟨h, handler⟩ := handler_of_taken run complete.1 item counted
  have free := complete.2 i item
  simp only [Program.busy, handler, Bool.not_eq_false'] at free
  exact ⟨h, handler, free⟩

/-! ## Building runs -/

/-- A run of one handler is a run of the pool. -/
theorem run_handler {i : ι} {h : η} {us : List (Machine.Transition (σ × η) α)} {m : σ} {r : σ × η}
    (run : Machine.Run (p.handle i) (m, h) us r) (handler : s.handlers i = some h) (shared : s.shared = m) :
    ∃ ts, Machine.Run p.step s ts
      { s with handlers := Function.update s.handlers i (some r.2), shared := r.1 } := by
  generalize start : (m, h) = u at run
  induction run generalizing s m h with
  | done r =>
      obtain rfl := start
      rw [← handler, Function.update_eq_self, ← shared]
      exact ⟨_, .done s⟩
  | @next u a v us r handled _ ih =>
      subst start
      have enabled : p.step s (.handler i a) =
          some { s with handlers := Function.update s.handlers i (some v.2), shared := v.1 } := by
        simp [Program.step, handler, shared, handled]
      obtain ⟨ts, rest⟩ := ih (s := { s with handlers := Function.update s.handlers i (some v.2), shared := v.1 })
        (m := v.1) (h := v.2) (Function.update_self ..) rfl rfl
      simp only [Function.update_idem] at rest
      exact ⟨_, .next enabled rest⟩

/-- A worker that is free takes the next item. -/
theorem next_enabled {n : Nat} (small : n < p.items.length) (index : s.nextIndex = n)
    (fresh : s.handlers p.items[n] = none) (fewer : p.items.countP (p.busy s) < p.limit) :
    p.step s .next = some { s with
      nextIndex := n + 1
      handlers := if p.skips p.items[n] then s.handlers
        else Function.update s.handlers p.items[n] (some p.start) } := by
  have item : p.items[n]? = some p.items[n] := List.getElem?_eq_getElem small
  have all : p.items.countP (p.busy s) < p.items.length := by
    apply Nat.lt_of_le_of_ne List.countP_le_length
    intro every
    have busy := List.countP_eq_length.mp every _ (List.getElem_mem small)
    simp [Program.busy, fresh] at busy
  simp only [Program.step, index, item, Nat.lt_min, fewer, all, and_self, if_true]

/-- The first items were taken and brought to their goals. -/
structure Brought (p : Program ι η σ α) (goal : ι → η → Prop) (J : σ → Prop) (n : Nat) (s : Pool ι η σ) : Prop where
  index : s.nextIndex = n
  shared : J s.shared
  goals : ∀ i ∈ p.items, ∀ h, s.handlers i = some h → goal i h
  rest : ∀ i, i ∉ p.items.take n → s.handlers i = none

variable {goal : ι → η → Prop} {J : σ → Prop} {held : List ι}

omit [DecidableEq ι] in
/-- Only held handlers are still busy at their goals. -/
theorem busy_le (distinct : p.items.Nodup) (free : ∀ i ∈ p.items, i ∉ held → ∀ h, goal i h → p.ended i h)
    (goals : ∀ i ∈ p.items, ∀ h, s.handlers i = some h → goal i h) :
    p.items.countP (p.busy s) ≤ held.length := by
  have inside : (p.items.filter (p.busy s)).Subset held := by
    intro i hi
    obtain ⟨member, busy⟩ := List.mem_filter.mp hi
    by_contra outside
    unfold Program.busy at busy
    split at busy
    · rename_i h handler
      simp [free i member outside h (goals i member h handler)] at busy
    · cases busy
  rw [List.countP_eq_length_filter]
  exact ((distinct.filter _).subperm inside).length_le

omit [DecidableEq ι] in
theorem Brought.complete (h : Brought p goal J p.items.length s) (free : ∀ i ∈ p.items, ∀ h, goal i h → p.ended i h) :
    p.Complete s := by
  refine ⟨h.index, fun i member => ?_⟩
  unfold Program.busy
  split
  · rename_i k handler
    rw [free i member k (h.goals i member k handler)]
    rfl
  · rfl

theorem Brought.next (distinct : p.items.Nodup) (few : held.length < p.limit)
    (reach : ∀ i ∈ p.items, ∀ m, J m →
      ∃ us r, Machine.Run (p.handle i) (m, p.start) us r ∧ goal i r.2 ∧ J r.1)
    (free : ∀ i ∈ p.items, i ∉ held → ∀ h, goal i h → p.ended i h) {n : Nat} (h : Brought p goal J n s)
    (small : n < p.items.length) : ∃ ts t, Machine.Run p.step s ts t ∧ Brought p goal J (n + 1) t := by
  have item : p.items[n]? = some p.items[n] := List.getElem?_eq_getElem small
  have fresh : p.items[n] ∉ p.items.take n := by
    rw [List.mem_take_iff_getElem]
    rintro ⟨k, before, same⟩
    have := (List.Nodup.getElem_inj_iff distinct).mp same
    omega
  have taken := next_enabled small h.index (h.rest _ fresh)
    (Nat.lt_of_le_of_lt (busy_le distinct free h.goals) few)
  have outside : ∀ i, i ∉ p.items.take (n + 1) → i ∉ p.items.take n ∧ i ≠ p.items[n] := by
    intro i hi
    rw [List.take_add_one, item, List.mem_append] at hi
    simpa using hi
  cases skips : p.skips p.items[n] with
  | true =>
      simp only [skips, if_true] at taken
      exact ⟨_, _, .next taken (.done _), rfl, h.shared, h.goals, fun i hi => h.rest i (outside i hi).1⟩
  | false =>
      simp only [skips, Bool.false_eq_true, if_false] at taken
      obtain ⟨us, r, alone, there, kept⟩ := reach _ (List.getElem_mem small) _ h.shared
      obtain ⟨vs, handled⟩ := run_handler alone (s := { s with
        nextIndex := n + 1, handlers := Function.update s.handlers p.items[n] (some p.start) })
        (Function.update_self ..) rfl
      simp only [Function.update_idem] at handled
      refine ⟨_, _, .next taken handled, rfl, kept, ?_, ?_⟩
      · intro i member k handler
        dsimp only at handler
        cases Decidable.em (i = p.items[n]) with
        | inl same =>
            subst same
            rw [Function.update_self] at handler
            exact Option.some.inj handler ▸ there
        | inr other =>
            rw [Function.update_of_ne other] at handler
            exact h.goals i member k handler
      · intro i hi
        dsimp only
        rw [Function.update_of_ne (outside i hi).2]
        exact h.rest i (outside i hi).1

variable (held goal J) in
/-- When single handlers can be brought to their goals, all can be, one item
    after the other, if fewer than the limit stay busy there. -/
theorem exists_goals (distinct : p.items.Nodup) (few : held.length < p.limit)
    (reach : ∀ i ∈ p.items, ∀ m, J m →
      ∃ us r, Machine.Run (p.handle i) (m, p.start) us r ∧ goal i r.2 ∧ J r.1)
    (free : ∀ i ∈ p.items, i ∉ held → ∀ h, goal i h → p.ended i h) {m : σ} (init : J m) :
    ∃ ts t, Machine.Run p.step { shared := m } ts t ∧ Brought p goal J p.items.length t := by
  have upto : ∀ n ≤ p.items.length, ∃ ts t, Machine.Run p.step { shared := m } ts t ∧ Brought p goal J n t := by
    intro n small
    induction n with
    | zero => exact ⟨_, _, .done _, rfl, init, by simp, by simp⟩
    | succ n ih =>
        obtain ⟨ts, t, run, brought⟩ := ih (Nat.le_of_succ_le small)
        obtain ⟨us, u, more, further⟩ := brought.next distinct few reach free small
        exact ⟨_, u, run.append more, further⟩
  exact upto _ (Nat.le_refl _)

end WorkerPool
