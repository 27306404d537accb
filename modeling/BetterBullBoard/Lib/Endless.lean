import BetterBullBoard.Lib.Machine
import Mathlib.Data.Nat.Find

/-! # Endless runs

What holds sooner or later is said of runs that go on for ever. At each moment
the machine takes an action, or other code runs and its state stays.
-/

namespace Machine

variable {σ α : Type}

structure Endless (step : σ → α → Option σ) (init : σ) where
  state : Nat → σ
  act : Nat → Option α
  start : state 0 = init
  next : ∀ n, match act n with
    | none => state (n + 1) = state n
    | some a => step (state n) a = some (state (n + 1))

namespace Endless

variable {step : σ → α → Option σ} {init : σ}

theorem next_none (run : Endless step init) {n : Nat} (idle : run.act n = none) :
    run.state (n + 1) = run.state n := by
  have next := run.next n
  rw [idle] at next
  exact next

theorem next_some (run : Endless step init) {n : Nat} {a : α} (acts : run.act n = some a) :
    step (run.state n) a = some (run.state (n + 1)) := by
  have next := run.next n
  rw [acts] at next
  exact next

/-- Every moment of an endless run is reached. -/
theorem reachable (run : Endless step init) (n : Nat) : Reachable step init (run.state n) := by
  induction n with
  | zero =>
      rw [run.start]
      exact ⟨[], .done init⟩
  | succ n ih =>
      obtain ⟨ts, reached⟩ := ih
      cases acts : run.act n with
      | none => exact ⟨ts, run.next_none acts ▸ reached⟩
      | some a => exact ⟨_, reached.append (.next (run.next_some acts) (.done _))⟩

/-- What every action in between keeps still holds later. -/
theorem lasts (run : Endless step init) {P : σ → Prop} {n m : Nat} (later : n ≤ m)
    (keep : ∀ k, n ≤ k → k < m → ∀ a, run.act k = some a → P (run.state k) → P (run.state (k + 1)))
    (holds : P (run.state n)) : P (run.state m) := by
  induction m, later using Nat.le_induction with
  | base => exact holds
  | succ m later ih =>
      have before := ih fun k start stop => keep k start (Nat.lt_succ_of_lt stop)
      cases acts : run.act m with
      | none => exact run.next_none acts ▸ before
      | some a => exact keep m later (Nat.lt_succ_self m) a acts before

/-- What ends only with a certain kind of action still holds when that action is taken. -/
theorem first (run : Endless step init) {P : σ → Prop} {A : σ → α → Prop} {n : Nat}
    (keep : ∀ k a, run.act k = some a → ¬ A (run.state k) a → P (run.state k) → P (run.state (k + 1)))
    (holds : P (run.state n)) (comes : ∃ m, n ≤ m ∧ ∃ a, run.act m = some a ∧ A (run.state m) a) :
    ∃ m, n ≤ m ∧ P (run.state m) ∧ ∃ a, run.act m = some a ∧ A (run.state m) a := by
  classical
  obtain ⟨later, acts⟩ := Nat.find_spec comes
  refine ⟨Nat.find comes, later, run.lasts later ?_ holds, acts⟩
  intro k start stop a taken
  exact keep k a taken fun kind => Nat.find_min comes stop ⟨start, a, taken, kind⟩

/-- A run goes on for ever when nothing more is done. -/
theorem exists_of_run {ts : List (Transition σ α)} {t : σ} (run : Run step init ts t) :
    ∃ endless : Endless step init, (∀ n x, ts[n]? = some x → endless.state n = x.pre ∧ endless.act n = some x.act) ∧
      ∀ n, ts.length ≤ n → endless.state n = t ∧ endless.act n = none := by
  induction run with
  | done s => exact ⟨⟨fun _ => s, fun _ => none, rfl, fun _ => rfl⟩, by simp, fun _ _ => ⟨rfl, rfl⟩⟩
  | @next s a s' ts t enabled _ ih =>
      obtain ⟨endless, steps, stops⟩ := ih
      refine ⟨⟨fun | 0 => s | n + 1 => endless.state n, fun | 0 => some a | n + 1 => endless.act n, rfl, ?_⟩, ?_, ?_⟩
      · intro n
        cases n with
        | zero =>
            change step s a = some (endless.state 0)
            rw [endless.start]
            exact enabled
        | succ n => exact endless.next n
      · intro n x found
        cases n with
        | zero =>
            obtain rfl := Option.some.inj found
            exact ⟨rfl, rfl⟩
        | succ n => exact steps n x found
      · intro n long
        cases n with
        | zero => exact absurd long (Nat.not_succ_le_zero _)
        | succ n => exact stops n (Nat.le_of_succ_le_succ long)

end Endless

end Machine
