import Mathlib.Data.List.Basic

/-! # Slices of fixed size

`for (i = 0; i < l.length; i += size) l.slice(i, i + size)`.
-/

namespace Slices

variable {α : Type}

def slices (size : Nat) (l : List α) : List (List α) :=
  (List.range ((l.length + (size - 1)) / size)).map fun i => (l.drop (size * i)).take size

/-- The first slices are the first items. -/
theorem flatten_first (size k : Nat) (l : List α) :
    ((List.range k).map fun i => (l.drop (size * i)).take size).flatten = l.take (size * k) := by
  induction k with
  | zero => simp
  | succ k ih =>
      rw [List.range_succ, List.map_append, List.flatten_append, ih, Nat.mul_succ, List.take_add]
      simp

/-- The slices put back together. -/
theorem flatten_slices {size : Nat} (pos : 0 < size) (l : List α) : (slices size l).flatten = l := by
  rw [slices, flatten_first]
  apply List.take_of_length_le
  have whole := Nat.div_add_mod (l.length + (size - 1)) size
  have rest := Nat.mod_lt (l.length + (size - 1)) pos
  omega

end Slices
