import Mathlib.Algebra.BigOperators.Group.Finset.Piecewise
import Mathlib.Algebra.Order.Ring.Int
import Mathlib.Data.List.Dedup

/-! # `GROUP BY`

The groups of a list by a key, one for each key that occurs. A sum over the rows
is the sum over the groups, so two lists with equal group sums have equal sums.
-/

namespace Grouped

variable {ρ σ κ : Type} [DecidableEq κ]

/-- The rows of one key. -/
def group (key : ρ → κ) (rows : List ρ) (k : κ) : List ρ := rows.filter fun r => key r = k

def groupBy (key : ρ → κ) (rows : List ρ) : List (κ × List ρ) :=
  (rows.map key).dedup.map fun k => (k, group key rows k)

theorem mem_groupBy {key : ρ → κ} {rows : List ρ} {k : κ} {g : List ρ} :
    (k, g) ∈ groupBy key rows ↔ g = group key rows k ∧ ∃ r ∈ rows, key r = k := by
  simp only [groupBy, List.mem_map, List.mem_dedup, Prod.mk.injEq]
  constructor
  · intro h
    obtain ⟨k', member, rfl, rfl⟩ := h
    exact ⟨rfl, member⟩
  · intro h
    exact ⟨k, h.2, rfl, h.1.symm⟩

theorem keys_groupBy (key : ρ → κ) (rows : List ρ) : ((groupBy key rows).map Prod.fst).Nodup := by
  have keys : (groupBy key rows).map Prod.fst = (rows.map key).dedup := by
    rw [groupBy, List.map_map]
    exact List.map_id _
  rw [keys]
  exact List.nodup_dedup _

theorem group_eq_nil {key : ρ → κ} {rows : List ρ} {k : κ} : group key rows k = [] ↔ ∀ r ∈ rows, key r ≠ k := by
  simp [group, List.filter_eq_nil_iff]

theorem sum_groups (key : ρ → κ) (f : ρ → Nat) {rows : List ρ} {keys : Finset κ} (covers : ∀ r ∈ rows, key r ∈ keys) :
    (rows.map f).sum = ∑ k ∈ keys, ((group key rows k).map f).sum := by
  induction rows with
  | nil => simp [group]
  | cons r rows ih =>
      simp only [List.forall_mem_cons] at covers
      have split : ∀ k, ((group key (r :: rows) k).map f).sum =
          (if key r = k then f r else 0) + ((group key rows k).map f).sum := by
        intro k
        simp only [group, List.filter_cons, decide_eq_true_eq]
        split <;> simp
      simp only [split, Finset.sum_add_distrib, Finset.sum_ite_eq, covers.1, if_true, List.map_cons, List.sum_cons,
        ih covers.2]

/-- The same over a list of keys. -/
theorem sum_keys (key : ρ → κ) (f : ρ → Nat) {rows : List ρ} {keys : List κ} (distinct : keys.Nodup)
    (covers : ∀ r ∈ rows, key r ∈ keys) :
    (keys.map fun k => ((group key rows k).map f).sum).sum = (rows.map f).sum := by
  rw [sum_groups key f fun r hr => List.mem_toFinset.mpr (covers r hr), List.sum_toFinset _ distinct]

/-- Equal group sums make equal sums. -/
theorem sum_eq_of_groups {key : ρ → κ} {key' : σ → κ} {f : ρ → Nat} {g : σ → Nat} {rows : List ρ} {rows' : List σ}
    (same : ∀ k, ((group key rows k).map f).sum = ((group key' rows' k).map g).sum) :
    (rows.map f).sum = (rows'.map g).sum := by
  have covers : ∀ r ∈ rows, key r ∈ (rows.map key ++ rows'.map key').toFinset := by
    intro r hr
    simp only [List.mem_toFinset, List.mem_append, List.mem_map]
    exact .inl ⟨r, hr, rfl⟩
  have covers' : ∀ r ∈ rows', key' r ∈ (rows.map key ++ rows'.map key').toFinset := by
    intro r hr
    simp only [List.mem_toFinset, List.mem_append, List.mem_map]
    exact .inr ⟨r, hr, rfl⟩
  rw [sum_groups key f covers, sum_groups key' g covers']
  exact Finset.sum_congr rfl fun k _ => same k

/-- Summing over the groups of one key is summing over its rows. -/
theorem sum_groupBy (key : ρ → κ) (f : ρ → Nat) (rows : List ρ) (k : κ) :
    (((groupBy key rows).filter fun e => e.1 = k).map fun e => (e.2.map f).sum).sum =
      ((group key rows k).map f).sum := by
  have found : (groupBy key rows).filter (fun e => e.1 = k) =
      ((rows.map key).dedup.filter fun k' => k' = k).map fun k' => (k', group key rows k') := by
    rw [groupBy, List.filter_map]
    rfl
  rw [found, List.filter_eq, List.count_dedup]
  split
  · simp
  · rename_i absent
    have empty : group key rows k = [] :=
      group_eq_nil.mpr fun r hr same => absent (List.mem_map.mpr ⟨r, hr, same⟩)
    simp [empty]

/-- Rows that fall into two parts are summed by parts. -/
theorem sum_parts (key : ρ → κ) (f : ρ → Nat) {p q r : ρ → Bool} (rows : List ρ) (k : κ)
    (whole : ∀ x ∈ rows, r x = (p x || q x)) (apart : ∀ x ∈ rows, p x → q x = false) :
    ((group key (rows.filter r) k).map f).sum =
      ((group key (rows.filter p) k).map f).sum + ((group key (rows.filter q) k).map f).sum := by
  induction rows with
  | nil => rfl
  | cons x rows ih =>
      simp only [List.forall_mem_cons] at whole apart
      have rest := ih whole.2 apart.2
      simp only [group, List.filter_filter] at rest ⊢
      simp only [List.filter_cons, whole.1]
      cases hp : p x with
      | true =>
          have hq := apart.1 hp
          cases Decidable.em (key x = k) with
          | inl same => simp [hq, same, rest, Nat.add_assoc]
          | inr other => simp [hq, other, rest]
      | false =>
          cases hq : q x with
          | false => simp [rest]
          | true =>
              cases Decidable.em (key x = k) with
              | inl same => simp [same, rest, Nat.add_left_comm]
              | inr other => simp [other, rest]

end Grouped
