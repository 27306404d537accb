import Mathlib.Logic.Function.Basic
import Mathlib.Logic.Relation
import Mathlib.Order.Defs.Unbundled

/-! # Locks taken in one order

Sessions run one statement after another, side by side. A statement asks for its
locks one by one and keeps them until it ends, and a session waits while another
holds a conflicting lock or stands before it in line. When every statement asks
in one order, sessions never wait for each other in a circle.
-/

namespace LockOrder

variable {ι κ μ : Type}

/-- What the statement of a session has and still asks for: keys, each with a
    mode. -/
structure Session (κ μ : Type) where
  held : List (κ × μ) := []
  todo : List (κ × μ) := []
  /-- Its place in the line for the next of them. -/
  place : Nat := 0

/-- The lock the session asks for, unless it has it already. -/
def Session.Wants (p : Session κ μ) (l : κ × μ) : Prop := p.todo.head? = some l ∧ l ∉ p.held

variable (conflict : μ → μ → Prop) (allowed : List (κ × μ) → Prop)

/-- Another session is in the way. -/
def Waits (s : ι → Session κ μ) (i j : ι) : Prop :=
  i ≠ j ∧ ∃ k mode, (s i).Wants (k, mode) ∧
    ((∃ mode', (k, mode') ∈ (s j).held ∧ conflict mode mode') ∨
      ((∃ mode', (s j).Wants (k, mode')) ∧ (s j).place < (s i).place))

/-- Sessions that wait for each other in a circle. -/
def Deadlock (s : ι → Session κ μ) : Prop := ∃ i, Relation.TransGen (Waits conflict s) i i

inductive Step [DecidableEq ι] : (ι → Session κ μ) → (ι → Session κ μ) → Prop where
  | start {s} (i : ι) {locks} : (s i).held = [] → (s i).todo = [] → allowed locks →
      Step s (Function.update s i { todo := locks })
  | line {s} (i : ι) (place : Nat) : Step s (Function.update s i { s i with place })
  | take {s} (i : ι) {l rest} : (s i).todo = l :: rest →
      l ∈ (s i).held ∨ (∀ j ≠ i, ∀ mode, (l.1, mode) ∈ (s j).held → ¬ conflict l.2 mode) →
      Step s (Function.update s i { s i with held := l :: (s i).held, todo := rest })
  /-- The statement commits or is rolled back. -/
  | finish {s} (i : ι) : Step s (Function.update s i {})

/-- From no session running anything. -/
def Reachable [DecidableEq ι] (s : ι → Session κ μ) : Prop :=
  Relation.ReflTransGen (Step conflict allowed) (fun _ => {}) s

variable {conflict allowed} (r : κ → κ → Prop)

/-- Locks in the order `r`; one may be asked for again at once. -/
def InOrder (locks : List (κ × μ)) : Prop := locks.Pairwise fun a b => r a.1 b.1 ∨ a = b

/-- What a session has stands before what it still asks for. -/
def Ordered (p : Session κ μ) : Prop := InOrder r (p.held.reverse ++ p.todo)

variable {r}

theorem Step.ordered [DecidableEq ι] (inOrder : ∀ locks, allowed locks → InOrder r locks) {s s' : ι → Session κ μ}
    (step : Step conflict allowed s s') (ordered : ∀ i, Ordered r (s i)) (j : ι) : Ordered r (s' j) := by
  have others : ∀ {i : ι} {p : Session κ μ}, Ordered r p → Ordered r (Function.update s i p j) := by
    intro i p own
    by_cases same : j = i
    · subst same
      rwa [Function.update_self]
    · rw [Function.update_of_ne same]
      exact ordered j
  cases step with
  | start i _ _ allowed => exact others (inOrder _ allowed)
  | line i place => exact others (ordered i)
  | @take i l rest next _ =>
      refine others ?_
      have before := ordered i
      rw [Ordered, next] at before
      rwa [Ordered, List.reverse_cons, List.append_assoc, List.singleton_append]
  | finish i => exact others List.Pairwise.nil

theorem Reachable.ordered [DecidableEq ι] (inOrder : ∀ locks, allowed locks → InOrder r locks)
    {s : ι → Session κ μ} (reachable : Reachable conflict allowed s) (i : ι) : Ordered r (s i) := by
  induction reachable generalizing i with
  | refl => exact List.Pairwise.nil
  | tail _ step ih => exact step.ordered inOrder ih i

/-- A session that waits asks for a later lock than any it has. -/
theorem Ordered.lt {p : Session κ μ} (ordered : Ordered r p) {l held : κ × μ} (wants : p.Wants l)
    (member : held ∈ p.held) : r held.1 l.1 := by
  obtain ⟨next, missing⟩ := wants
  have apart := (List.pairwise_append.mp ordered).2.2 held (List.mem_reverse.mpr member) l
    (List.mem_of_mem_head? next)
  exact apart.resolve_right fun same => missing (same ▸ member)

/-- Down a chain of waiting sessions the locks they ask for get later, or stay the
    same while the place in line gets better. -/
theorem exists_earlier [IsStrictOrder κ r] {s : ι → Session κ μ} (ordered : ∀ i, Ordered r (s i)) {i j : ι}
    (waits : Relation.TransGen (Waits conflict s) i j) {l' : κ × μ} (wants : (s j).Wants l') :
    ∃ l, (s i).Wants l ∧ (r l.1 l'.1 ∨ (l.1 = l'.1 ∧ (s j).place < (s i).place)) := by
  have one : ∀ {i j : ι} {l' : κ × μ}, Waits conflict s i j → (s j).Wants l' →
      ∃ l, (s i).Wants l ∧ (r l.1 l'.1 ∨ (l.1 = l'.1 ∧ (s j).place < (s i).place)) := by
    rintro i j l' ⟨-, k, mode, asks, ⟨mode', held, -⟩ | ⟨⟨mode', same⟩, ahead⟩⟩ wants
    · have before : r k l'.1 := (ordered j).lt wants held
      exact ⟨_, asks, .inl before⟩
    · obtain rfl := Option.some.inj (same.1.symm.trans wants.1)
      exact ⟨_, asks, .inr ⟨rfl, ahead⟩⟩
  induction waits generalizing l' with
  | single first => exact one first wants
  | @tail b c _ last ih =>
      obtain ⟨middle, asks, later⟩ := one last wants
      obtain ⟨l, asks', earlier⟩ := ih asks
      refine ⟨l, asks', ?_⟩
      rcases earlier with less | ⟨same, ahead⟩ <;> rcases later with less' | ⟨same', ahead'⟩
      · exact .inl (trans_of r less less')
      · exact .inl (same' ▸ less)
      · exact .inl (same ▸ less')
      · exact .inr ⟨same.trans same', Nat.lt_trans ahead' ahead⟩

/-- Statements that take their locks in one order never deadlock. -/
theorem no_deadlock [DecidableEq ι] [IsStrictOrder κ r] (inOrder : ∀ locks, allowed locks → InOrder r locks)
    {s : ι → Session κ μ} (reachable : Reachable conflict allowed s) : ¬ Deadlock conflict s := by
  rintro ⟨i, circle⟩
  obtain ⟨j, ⟨-, k, mode, wants, -⟩, -⟩ := Relation.TransGen.head'_iff.mp circle
  obtain ⟨l, asks, earlier⟩ := exists_earlier (reachable.ordered inOrder) circle wants
  obtain rfl := Option.some.inj (asks.1.symm.trans wants.1)
  rcases earlier with less | ⟨-, ahead⟩
  · exact irrefl_of r _ less
  · exact Nat.lt_irrefl _ ahead

end LockOrder
