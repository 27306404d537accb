import Mathlib.Logic.Function.Basic

/-! # Row locks

A transaction that updates a row holds it until it commits or rolls back, and
an update by another transaction waits for that. A lock table names the holder
of each held row, so a row never has two.
-/

namespace RowLocks

variable {κ ι : Type}

/-- `i` comes to hold `k`. -/
def acquire [DecidableEq κ] (locks : κ → Option ι) (k : κ) (i : ι) : κ → Option ι := Function.update locks k (some i)

/-- The transaction of `i` ends. -/
def release [DecidableEq ι] (locks : κ → Option ι) (i : ι) : κ → Option ι :=
  fun k => if locks k = some i then none else locks k

variable {locks : κ → Option ι} {k l : κ} {i j : ι}

@[simp] theorem acquire_self [DecidableEq κ] : acquire locks k i k = some i := Function.update_self ..

/-- Acquiring a free row leaves the rows that are held. -/
theorem acquire_keeps [DecidableEq κ] (free : locks k = none) (held : locks l = some j) :
    acquire locks k i l = some j := by
  have other : l ≠ k := by
    intro same
    rw [same, free] at held
    cases held
  rwa [acquire, Function.update_of_ne other]

/-- The rows of others stay held when a transaction ends. -/
theorem release_keeps [DecidableEq ι] (other : j ≠ i) (held : locks l = some j) : release locks i l = some j := by
  have : ¬ locks l = some i := by
    rw [held]
    intro same
    exact other (Option.some.inj same)
  rw [release, if_neg this, held]

end RowLocks
