import Mathlib.Order.Basic
import Mathlib.Data.List.Basic
import Mathlib.Data.List.Sort

/-! # Places in sorted rows

Comparing sorted rows with the key of one of them cuts the rows at its place. Rows
that a limit leaves out come after those it keeps, so a limit keeps the top.
-/

namespace SortedRows

variable {ρ κ : Type} [LinearOrder κ] {key : ρ → κ} {xs : List ρ} {i : Nat} {b : ρ}

private theorem cut (strict : xs.Pairwise (key · < key ·)) (here : xs[i]? = some b) :
    xs = xs.take i ++ xs.drop i ∧ (∀ r ∈ xs.take i, key r < key b) ∧ ∀ r ∈ xs.drop i, key b ≤ key r := by
  obtain ⟨inside, rfl⟩ := List.getElem?_eq_some_iff.mp here
  have here : xs.drop i = xs[i] :: xs.drop (i + 1) := List.drop_eq_getElem_cons inside
  have split := (List.take_append_drop i xs).symm
  refine ⟨split, ?_⟩
  rw [split, here] at strict
  obtain ⟨-, after, cross⟩ := List.pairwise_append.mp strict
  refine ⟨fun r hr => cross r hr _ List.mem_cons_self, ?_⟩
  rw [here]
  intro r hr
  cases List.mem_cons.mp hr with
  | inl same => exact le_of_eq (congrArg key same.symm)
  | inr later => exact le_of_lt ((List.pairwise_cons.mp after).1 r later)

theorem filter_from (strict : xs.Pairwise (key · < key ·)) (here : xs[i]? = some b) :
    (xs.filter fun r => key b ≤ key r) = xs.drop i := by
  obtain ⟨split, before, after⟩ := cut strict here
  conv_lhs => rw [split]
  rw [List.filter_append, List.filter_eq_nil_iff.mpr, List.filter_eq_self.mpr, List.nil_append]
  · exact fun r hr => decide_eq_true (after r hr)
  · exact fun r hr => by simpa using before r hr

theorem filter_before (strict : xs.Pairwise (key · < key ·)) (here : xs[i]? = some b) :
    (xs.filter fun r => key r < key b) = xs.take i := by
  obtain ⟨split, before, after⟩ := cut strict here
  conv_lhs => rw [split]
  rw [List.filter_append, List.filter_eq_self.mpr, List.filter_eq_nil_iff.mpr, List.append_nil]
  · exact fun r hr => by simpa using after r hr
  · exact fun r hr => decide_eq_true (before r hr)

/-- Sorting by a key that tells the rows apart. -/
theorem pairwise_sort {r : ρ → ρ → Prop} [DecidableRel r] (follows : ∀ a b, r a b ↔ key a ≤ key b) {rows : List ρ}
    (distinct : (rows.map key).Nodup) : (rows.insertionSort r).Pairwise (key · < key ·) := by
  have : Std.Total r := ⟨fun a b => by simpa only [follows] using le_total (key a) (key b)⟩
  have : IsTrans ρ r := ⟨fun a b c => by simpa only [follows] using le_trans⟩
  have sorted := List.pairwise_insertionSort r rows
  have apart := List.pairwise_map.mp (((List.perm_insertionSort r rows).map key).nodup_iff.mpr distinct)
  exact (sorted.and apart).imp fun both => lt_of_le_of_ne ((follows _ _).mp both.1) both.2

theorem of_not_mem_take (strict : xs.Pairwise (key · < key ·)) {n : Nat} (member : b ∈ xs) (out : b ∉ xs.take n) :
    (xs.take n).length = n ∧ ∀ a ∈ xs.take n, key a < key b := by
  have later : b ∈ xs.drop n := by
    rw [← List.take_append_drop n xs] at member
    exact (List.mem_append.mp member).resolve_left out
  have longer := List.length_pos_of_mem later
  rw [List.length_drop] at longer
  rw [← List.take_append_drop n xs] at strict
  refine ⟨by rw [List.length_take]; omega, fun a ha => (List.pairwise_append.mp strict).2.2 a ha b later⟩

/-! ## The top of some rows -/

/-- The rows with the largest keys, largest first. -/
structure Top (n : Nat) (key : ρ → κ) (rows top : List ρ) : Prop where
  length : top.length = min n rows.length
  descending : top.Pairwise fun a b => key b ≤ key a
  best : ∃ rest, (top ++ rest).Perm rows ∧ ∀ a ∈ top, ∀ b ∈ rest, key b ≤ key a

theorem top_take {rows : List ρ} (sorted : xs.Pairwise fun a b => key b ≤ key a) (perm : xs.Perm rows) (n : Nat) :
    Top n key rows (xs.take n) where
  length := by rw [List.length_take, perm.length_eq]
  descending := sorted.sublist (List.take_sublist n xs)
  best := by
    refine ⟨xs.drop n, by rwa [List.take_append_drop], ?_⟩
    rw [← List.take_append_drop n xs] at sorted
    exact (List.pairwise_append.mp sorted).2.2

theorem pairwise_descending (key : ρ → κ) (rows : List ρ) :
    (rows.insertionSort fun a b => key b ≤ key a).Pairwise fun a b => key b ≤ key a := by
  have : Std.Total fun a b : ρ => key b ≤ key a := ⟨fun a b => le_total (key b) (key a)⟩
  have : IsTrans ρ fun a b => key b ≤ key a := ⟨fun a b c before after => le_trans after before⟩
  exact List.pairwise_insertionSort _ rows

/-- An `ORDER BY key DESC`: among rows with equal keys the order is its own. -/
structure OrderDesc (key : ρ → κ) where
  sort : List ρ → List ρ
  perm : ∀ rows, (sort rows).Perm rows
  descending : ∀ rows, (sort rows).Pairwise fun a b => key b ≤ key a

/-- The one that keeps the order of rows with equal keys. -/
def OrderDesc.stable (key : ρ → κ) : OrderDesc key where
  sort rows := rows.insertionSort fun a b => key b ≤ key a
  perm := List.perm_insertionSort _
  descending := pairwise_descending key

end SortedRows
