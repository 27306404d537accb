import Mathlib.Data.List.Perm.Subperm
import Mathlib.Data.List.Nodup

/-! # `LIMIT`

Without `ORDER BY` a limited query may return any of the matching rows, in any
order, as long as it returns as many as the limit allows. With `ORDER BY` it
returns no row while leaving out a strictly earlier one.
-/

namespace Limit

variable {ρ : Type}

/-- What `SELECT .. LIMIT n` over these rows may return. -/
def Returns (n : Nat) (rows returned : List ρ) : Prop :=
  returned.Subperm rows ∧ returned.length = min n rows.length

instance [DecidableEq ρ] (n : Nat) (rows returned : List ρ) : Decidable (Returns n rows returned) :=
  inferInstanceAs (Decidable (_ ∧ _))

theorem returns_take (n : Nat) (rows : List ρ) : Returns n rows (rows.take n) :=
  ⟨(List.take_sublist n rows).subperm, List.length_take⟩

namespace Returns

variable {n : Nat} {rows returned : List ρ}

theorem mem (h : Returns n rows returned) {r : ρ} (hr : r ∈ returned) : r ∈ rows :=
  h.1.subset hr

theorem nodup (h : Returns n rows returned) (distinct : rows.Nodup) : returned.Nodup := by
  obtain ⟨l, perm, sub⟩ := h.1
  exact perm.nodup_iff.mp (distinct.sublist sub)

/-- A limit that does not cut returns every row. -/
theorem complete (h : Returns n rows returned) (fits : rows.length ≤ n) {r : ρ} (hr : r ∈ rows) :
    r ∈ returned := by
  have len : rows.length ≤ returned.length := by rw [h.2]; omega
  exact (h.1.perm_of_length_le len).symm.subset hr

/-- Nothing is returned only where nothing matches. -/
theorem eq_nil_iff (h : Returns n rows returned) (positive : 0 < n) : returned = [] ↔ rows = [] := by
  rw [← List.length_eq_zero_iff, ← List.length_eq_zero_iff, h.2]
  omega

/-- A row left out means the limit was reached. -/
theorem full (h : Returns n rows returned) {r : ρ} (hr : r ∈ rows) (out : r ∉ returned) :
    returned.length = n := by
  by_cases fits : rows.length ≤ n
  · exact absurd (h.complete fits hr) out
  · rw [h.2]
    omega

/-- If the rows without some property fit the limit, a query returns each of
    them or a row with the property. -/
theorem progress (h : Returns n rows returned) (distinct : rows.Nodup) {p : ρ → Bool}
    (fits : (rows.filter fun r => !p r).length ≤ n) {r : ρ} (hr : r ∈ rows) (lacks : p r = false) :
    r ∈ returned ∨ ∃ y ∈ returned, p y := by
  by_cases inside : r ∈ returned
  · exact .inl inside
  · refine .inr ?_
    by_contra absent
    have sub : r :: returned ⊆ rows.filter fun r => !p r := by
      intro y hy
      cases List.mem_cons.mp hy with
      | inl same => exact List.mem_filter.mpr ⟨same ▸ hr, by simp [same, lacks]⟩
      | inr member =>
          have without : p y = false := Bool.eq_false_iff.mpr fun has => absent ⟨y, member, has⟩
          exact List.mem_filter.mpr ⟨h.mem member, by simp [without]⟩
    have more := (List.Nodup.subperm (List.nodup_cons.mpr ⟨inside, h.nodup distinct⟩) sub).length_le
    rw [List.length_cons, h.full hr inside] at more
    omega

end Returns

/-- What `SELECT .. ORDER BY key LIMIT n` over these rows may return: among rows
    of one key any may be left out. -/
def ReturnsOldest (key : ρ → Int) (n : Nat) (rows returned : List ρ) : Prop :=
  Returns n rows returned ∧ ∀ x ∈ returned, ∀ y ∈ rows, y ∉ returned → key x ≤ key y

end Limit
