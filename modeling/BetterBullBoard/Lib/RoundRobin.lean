import Mathlib.Data.Nat.Count
import Mathlib.Logic.Function.Iterate

/-! # Round robin

A cursor walks over a list, a window at a time, and wraps around at the end.
Any `⌈n / m⌉` windows of width `m` in a row meet each of the `n` items.
-/

namespace RoundRobin

variable {α : Type}

/-- The items from the cursor on, `m` of them. -/
def window (m : Nat) (items : List α) (cursor : Nat) : List α :=
  (List.range m).filterMap fun i => items[(cursor + i) % items.length]?

def advance (m n cursor : Nat) : Nat := (cursor + m) % n

/-- How many windows of width `m` cover `n` items. -/
def rounds (n m : Nat) : Nat := (n + (m - 1)) / m

theorem iterate_advance (m n cursor i : Nat) : ((advance m n)^[i] cursor) % n = (cursor + i * m) % n := by
  induction i generalizing cursor with
  | zero => simp
  | succ i ih =>
      rw [Function.iterate_succ_apply, ih, advance, Nat.mod_add_mod, Nat.succ_mul]
      congr 1
      omega

theorem mem_window {m cursor offset : Nat} {items : List α} {x : α} (inside : offset < m)
    (found : items[(cursor + offset) % items.length]? = some x) : x ∈ window m items cursor :=
  List.mem_filterMap.mpr ⟨offset, List.mem_range.mpr inside, found⟩

theorem length_window_le (m : Nat) (items : List α) (cursor : Nat) : (window m items cursor).length ≤ m := by
  have bound := List.length_filterMap_le (fun i => items[(cursor + i) % items.length]?) (List.range m)
  rwa [List.length_range] at bound

theorem mem_of_mem_window {m cursor : Nat} {items : List α} {x : α} (inside : x ∈ window m items cursor) :
    x ∈ items := by
  obtain ⟨offset, -, found⟩ := List.mem_filterMap.mp inside
  exact List.mem_of_getElem? found

theorem rounds_mul {n m : Nat} (positive : 0 < m) : n ≤ rounds n m * m := by
  have whole := Nat.div_add_mod (n + (m - 1)) m
  have rest := Nat.mod_lt (n + (m - 1)) positive
  rw [Nat.mul_comm m] at whole
  unfold rounds
  omega

theorem exists_window {m : Nat} {items : List α} {x : α} (positive : 0 < m) (member : x ∈ items) (cursor : Nat) :
    ∃ i < rounds items.length m, x ∈ window m items ((advance m items.length)^[i] cursor) := by
  obtain ⟨j, inside, found⟩ := List.getElem_of_mem member
  -- how far the item lies ahead of the cursor
  have start := Nat.mod_lt cursor (Nat.zero_lt_of_lt inside)
  obtain ⟨d, ahead, reached⟩ : ∃ d < items.length, (cursor + d) % items.length = j := by
    refine ⟨(j + (items.length - cursor % items.length)) % items.length,
      Nat.mod_lt _ (Nat.zero_lt_of_lt inside), ?_⟩
    rw [Nat.add_mod_mod, ← Nat.mod_add_mod,
      show cursor % items.length + (j + (items.length - cursor % items.length)) = j + items.length by omega,
      Nat.add_mod_right, Nat.mod_eq_of_lt inside]
  have split := Nat.div_add_mod d m
  have offset := Nat.mod_lt d positive
  refine ⟨d / m, Nat.div_lt_of_lt_mul ?_, mem_window offset ?_⟩
  · rw [Nat.mul_comm]
    exact Nat.lt_of_lt_of_le ahead (rounds_mul positive)
  · rw [← Nat.mod_add_mod, iterate_advance, Nat.mod_add_mod, Nat.mul_comm, Nat.add_assoc, split, reached, ← found]
    exact List.getElem?_eq_getElem inside

/-- A window no wider than the list meets no position twice. -/
theorem nodup_window {m cursor : Nat} {items : List α} (distinct : items.Nodup) (fits : m ≤ items.length) :
    (window m items cursor).Nodup := by
  apply List.pairwise_filterMap.mpr
  apply List.pairwise_lt_range.imp_of_mem
  intro i j hi hj less x found y again same
  subst same
  rw [List.mem_range] at hi hj
  have positive : 0 < items.length := by omega
  have inside := Nat.mod_lt (cursor + i) positive
  have position : (cursor + i) % items.length = (cursor + j) % items.length :=
    (List.getElem?_inj inside distinct).mp (found.trans again.symm)
  have apart : j - i < items.length := by omega
  have gap : (j - i) % items.length = 0 := by
    have shifted := Nat.sub_mod_eq_zero_of_mod_eq position.symm
    rwa [show cursor + j - (cursor + i) = j - i by omega] at shifted
  rw [Nat.mod_eq_of_lt apart] at gap
  omega

theorem count_iterate_succ (P : Nat → Prop) [DecidablePred P] (f : Nat → Nat) (c k : Nat) :
    Nat.count (fun i => P (f^[i] c)) (k + 1) =
      Nat.count (fun i => P (f^[i] (f c))) k + if P c then 1 else 0 := Nat.count_succ' _ k

/-- What happens at least once in any `R` steps happens at least `k` times in
    any `k * R`. -/
theorem count_of_within {f : Nat → Nat} {P : Nat → Prop} [DecidablePred P] {R : Nat}
    (within : ∀ c, ∃ i < R, P (f^[i] c)) (k c : Nat) : k ≤ Nat.count (fun i => P (f^[i] c)) (k * R) := by
  induction k generalizing c with
  | zero => exact Nat.zero_le _
  | succ k ih =>
      have once : Nat.count (fun i => P (f^[i] c)) R ≠ 0 := Nat.count_ne_iff_exists.mpr (within c)
      have later := ih (f^[R] c)
      rw [Nat.succ_mul, Nat.add_comm (k * R), Nat.count_add]
      simp only [Nat.add_comm R, Function.iterate_add_apply]
      omega

end RoundRobin
