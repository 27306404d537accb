import Mathlib.Logic.Function.Iterate
import Mathlib.Data.List.Basic
import Mathlib.Data.Nat.Find

/-! # Redelivering a list in batches

The first `B` pending entries are delivered again and again. Entries that are
not valid leave at once; the valid ones of a batch leave together, unless their
statement fails. A failing batch comes back refilled, so the entries a statement
sees are those of a window that widens until it passes or holds `B` valid ones.
-/

namespace Redelivery

variable {α : Type} (valid : α → Bool) (fails : List α → Bool) (B : Nat)

def redeliver (pending : List α) : List α :=
  let batch := (pending.take B).filter valid
  (if fails batch then batch else []) ++ pending.drop B

/-- How many entries the first `k` deliveries of one window reach. -/
def reach (pending : List α) : Nat → Nat
  | 0 => 0
  | k + 1 => reach pending k + (B - ((pending.take (reach pending k)).filter valid).length)

/-- What the statement of delivery `k` holds, if all earlier ones failed. -/
def attempt (pending : List α) (k : Nat) : List α := (pending.take (reach valid B pending (k + 1))).filter valid

/-- Taking windows that pass off the front, one after another, leaves nothing
    accepted. -/
inductive Clears (accepted : α → Prop) : List α → Prop where
  | rest {pending} : (∀ x ∈ pending, ¬ accepted x) → Clears accepted pending
  | window {pending} (k : Nat) : (∀ j < k, fails (attempt valid B pending j)) →
      fails (attempt valid B pending k) = false →
      Clears accepted (pending.drop (reach valid B pending (k + 1))) → Clears accepted pending

/-- The statements of the windows that pass, taken off the front one after another. -/
inductive Passes : List α → List α → Prop where
  | here {pending} (k : Nat) : (∀ j < k, fails (attempt valid B pending j)) →
      fails (attempt valid B pending k) = false → Passes pending (attempt valid B pending k)
  | later {pending batch} (k : Nat) : (∀ j < k, fails (attempt valid B pending j)) →
      fails (attempt valid B pending k) = false →
      Passes (pending.drop (reach valid B pending (k + 1))) batch → Passes pending batch

/-- The statements that pass in so many redeliveries. -/
def passed : Nat → List α → List (List α)
  | 0, _ => []
  | n + 1, pending =>
      let batch := (pending.take B).filter valid
      (if fails batch then [] else [batch]) ++ passed n (redeliver valid fails B pending)

variable {valid fails B}

/-! ## Until nothing changes -/

theorem redeliver_sublist (pending : List α) : (redeliver valid fails B pending).Sublist pending := by
  unfold redeliver
  have parts : (pending.take B ++ pending.drop B).Sublist pending := by rw [List.take_append_drop]
  refine List.Sublist.trans (List.Sublist.append ?_ (List.Sublist.refl _)) parts
  split
  · exact List.filter_sublist
  · exact List.nil_sublist _

theorem iterate_sublist (n : Nat) (pending : List α) : ((redeliver valid fails B)^[n] pending).Sublist pending := by
  induction n generalizing pending with
  | zero => exact List.Sublist.refl _
  | succ n ih => exact (ih _).trans (redeliver_sublist pending)

/-- A redelivery takes some entry away or changes nothing. -/
theorem redeliver_progress (pending : List α) :
    redeliver valid fails B pending = pending ∨ (redeliver valid fails B pending).length < pending.length := by
  cases Nat.lt_or_ge (redeliver valid fails B pending).length pending.length with
  | inl less => exact .inr less
  | inr all => exact .inl ((redeliver_sublist pending).eq_of_length_le all)

theorem redeliver_stable (nothing : fails [] = false) {n : Nat} {pending : List α} (enough : pending.length ≤ n) :
    redeliver valid fails B ((redeliver valid fails B)^[n] pending) = (redeliver valid fails B)^[n] pending := by
  induction n generalizing pending with
  | zero =>
      obtain rfl := List.length_eq_zero_iff.mp (Nat.le_zero.mp enough)
      simp [redeliver, nothing]
  | succ n ih =>
      rw [Function.iterate_succ_apply]
      cases redeliver_progress pending with
      | inl same => rw [same, Function.iterate_fixed same, same]
      | inr less => exact ih (by omega)

/-- More redeliveries than entries change nothing further. -/
theorem iterate_stable (nothing : fails [] = false) {n : Nat} {pending : List α} (enough : pending.length ≤ n)
    (more : Nat) : (redeliver valid fails B)^[more + n] pending = (redeliver valid fails B)^[n] pending := by
  rw [Function.iterate_add_apply]
  exact Function.iterate_fixed (redeliver_stable nothing enough) more

/-! ## Windows -/

/-- What is pending while a window that has reached `w` entries has not passed. -/
def squeeze (valid : α → Bool) (pending : List α) (w : Nat) : List α :=
  (pending.take w).filter valid ++ pending.drop w

variable (valid B) in
theorem valid_reach_le (pending : List α) (k : Nat) :
    ((pending.take (reach valid B pending k)).filter valid).length ≤ B := by
  induction k with
  | zero => simp [reach]
  | succ k ih =>
      rw [reach, List.take_add, List.filter_append, List.length_append]
      have rest := List.length_filter_le valid ((pending.drop (reach valid B pending k)).take
        (B - ((pending.take (reach valid B pending k)).filter valid).length))
      have taken := List.length_take_le (B - ((pending.take (reach valid B pending k)).filter valid).length)
        (pending.drop (reach valid B pending k))
      omega

variable (valid B) in
/-- A delivery that finds the window squeezed is the next attempt. -/
theorem filter_squeeze (pending : List α) (k : Nat) :
    ((squeeze valid pending (reach valid B pending k)).take B).filter valid = attempt valid B pending k := by
  rw [squeeze, List.take_append, List.take_of_length_le (valid_reach_le valid B pending k), List.filter_append,
    List.filter_filter, attempt, reach, List.take_add, List.filter_append]
  simp only [Bool.and_self]

theorem redeliver_squeeze (pending : List α) (k : Nat) :
    redeliver valid fails B (squeeze valid pending (reach valid B pending k)) =
      if fails (attempt valid B pending k) then squeeze valid pending (reach valid B pending (k + 1))
      else pending.drop (reach valid B pending (k + 1)) := by
  have left : (squeeze valid pending (reach valid B pending k)).drop B =
      pending.drop (reach valid B pending (k + 1)) := by
    rw [squeeze, List.drop_append, List.drop_of_length_le (valid_reach_le valid B pending k), List.nil_append,
      List.drop_drop, reach]
  simp only [redeliver, filter_squeeze, left]
  split
  · rfl
  · rfl

theorem iterate_failing {pending : List α} {k : Nat} (failing : ∀ j < k, fails (attempt valid B pending j)) :
    (redeliver valid fails B)^[k] pending = squeeze valid pending (reach valid B pending k) := by
  induction k with
  | zero => simp [squeeze, reach]
  | succ k ih =>
      rw [Function.iterate_succ_apply', ih fun j hj => failing j (by omega), redeliver_squeeze,
        if_pos (failing k (by omega))]

theorem iterate_passing {pending : List α} {k : Nat} (failing : ∀ j < k, fails (attempt valid B pending j))
    (passes : fails (attempt valid B pending k) = false) :
    (redeliver valid fails B)^[k + 1] pending = pending.drop (reach valid B pending (k + 1)) := by
  rw [Function.iterate_succ_apply', iterate_failing failing, redeliver_squeeze, passes]
  rfl

variable (valid B) in
theorem le_reach_succ (pending : List α) (k : Nat) : B ≤ reach valid B pending (k + 1) := by
  induction k with
  | zero => simp [reach]
  | succ k ih =>
      rw [reach]
      omega

variable {accepted : α → Prop}

theorem Clears.cleared {pending : List α} (h : Clears valid fails B accepted pending) :
    ∃ m, ∀ x ∈ (redeliver valid fails B)^[m] pending, ¬ accepted x := by
  induction h with
  | rest rested => exact ⟨0, rested⟩
  | window k failing passes _ ih =>
      obtain ⟨m, rested⟩ := ih
      exact ⟨m + (k + 1), by rwa [Function.iterate_add_apply, iterate_passing failing passes]⟩

/-- After as many redeliveries as there are entries, nothing accepted is pending
    exactly when the list clears. -/
theorem iterate_iff_clears (positive : 0 < B) (nothing : fails [] = false)
    (usable : ∀ x, accepted x → valid x) {n : Nat} {pending : List α} (enough : pending.length ≤ n) :
    (∀ x ∈ (redeliver valid fails B)^[n] pending, ¬ accepted x) ↔ Clears valid fails B accepted pending := by
  constructor
  · intro gone
    induction h : pending.length using Nat.strong_induction_on generalizing pending with
    | h len ih =>
        subst h
        cases Classical.em (∃ k, fails (attempt valid B pending k) = false) with
        | inr stuck =>
            -- no window passes, so every valid entry is still pending
            have failing : ∀ j, fails (attempt valid B pending j) := by simpa using stuck
            rw [iterate_failing fun j _ => failing j, squeeze] at gone
            refine .rest fun x hx good => ?_
            rw [← List.take_append_drop (reach valid B pending n) pending] at hx
            cases List.mem_append.mp hx with
            | inl inside =>
                exact gone x (List.mem_append_left _ (List.mem_filter.mpr ⟨inside, usable x good⟩)) good
            | inr behind => exact gone x (List.mem_append_right _ behind) good
        | inl passing =>
            have passes := Nat.find_spec passing
            have failing : ∀ j < Nat.find passing, fails (attempt valid B pending j) := by
              intro j hj
              simpa using Nat.find_min passing hj
            cases pending with
            | nil => exact .rest (by simp)
            | cons x pending =>
                refine .window _ failing passes ?_
                have far := le_reach_succ valid B (x :: pending) (Nat.find passing)
                have shorter : ((x :: pending).drop (reach valid B (x :: pending) (Nat.find passing + 1))).length <
                    (x :: pending).length := by
                  rw [List.length_drop, List.length_cons]
                  omega
                refine ih _ shorter (by omega) ?_ rfl
                rw [← iterate_passing failing passes, ← Function.iterate_add_apply, Nat.add_comm,
                  iterate_stable nothing enough]
                exact gone
  · intro clears
    obtain ⟨m, rested⟩ := clears.cleared
    intro x hx
    rw [← iterate_stable nothing enough m, Nat.add_comm, Function.iterate_add_apply] at hx
    exact rested x ((iterate_sublist n _).subset hx)

/-! ## What has passed -/

theorem passed_add (m n : Nat) (pending : List α) : passed valid fails B (m + n) pending =
    passed valid fails B m pending ++ passed valid fails B n ((redeliver valid fails B)^[m] pending) := by
  induction m generalizing pending with
  | zero => rw [Nat.zero_add]; rfl
  | succ m ih => rw [Nat.succ_add, passed, passed, ih, List.append_assoc, Function.iterate_succ_apply]

theorem passed_failing {pending : List α} {k : Nat} (failing : ∀ j < k, fails (attempt valid B pending j)) :
    passed valid fails B k pending = [] := by
  induction k with
  | zero => rfl
  | succ k ih =>
      rw [passed_add, ih fun j hj => failing j (by omega), iterate_failing fun j hj => failing j (by omega), passed,
        filter_squeeze, if_pos (failing k (Nat.lt_succ_self k))]
      rfl

theorem passed_passing {pending : List α} {k : Nat} (failing : ∀ j < k, fails (attempt valid B pending j))
    (passes : fails (attempt valid B pending k) = false) :
    passed valid fails B (k + 1) pending = [attempt valid B pending k] := by
  rw [passed_add, passed_failing failing, iterate_failing failing, passed, filter_squeeze, passes]
  rfl

/-- What passes in some redeliveries passes in a window. -/
theorem passes_of_passed {n : Nat} {pending batch : List α} (h : batch ∈ passed valid fails B n pending) :
    Passes valid fails B pending batch := by
  induction n using Nat.strong_induction_on generalizing pending with
  | h n ih =>
      by_cases early : ∀ j < n, fails (attempt valid B pending j)
      · rw [passed_failing early] at h
        cases h
      · push Not at early
        have passes := Nat.find_spec early
        have failing : ∀ j < Nat.find early, fails (attempt valid B pending j) := by
          intro j hj
          by_contra passes'
          exact Nat.find_min early hj ⟨Nat.lt_trans hj passes.1, passes'⟩
        have passing : fails (attempt valid B pending (Nat.find early)) = false := Bool.not_eq_true _ ▸ passes.2
        obtain ⟨rest, split⟩ := Nat.exists_eq_add_of_le (Nat.succ_le_of_lt passes.1)
        rw [split, passed_add, passed_passing failing passing, iterate_passing failing passing] at h
        cases List.mem_append.mp h with
        | inl first =>
            obtain rfl := List.mem_singleton.mp first
            exact .here _ failing passing
        | inr behind => exact .later _ failing passing (ih rest (by omega) behind)

theorem Passes.passed {pending batch : List α} (h : Passes valid fails B pending batch) :
    ∃ n, batch ∈ Redelivery.passed valid fails B n pending := by
  induction h with
  | here k failing passes => exact ⟨k + 1, by simp [passed_passing failing passes]⟩
  | later k failing passes _ ih =>
      obtain ⟨n, member⟩ := ih
      refine ⟨k + 1 + n, ?_⟩
      rw [passed_add, iterate_passing failing passes]
      exact List.mem_append_right _ member

/-- Once nothing changes, only empty statements pass. -/
theorem passed_fixed (positive : 0 < B) {n : Nat} {pending batch : List α}
    (fixed : redeliver valid fails B pending = pending) (h : batch ∈ passed valid fails B n pending) : batch = [] := by
  induction n with
  | zero => cases h
  | succ n ih =>
      rw [passed, fixed] at h
      cases List.mem_append.mp h with
      | inr behind => exact ih behind
      | inl first =>
          split at first
          · cases first
          · rename_i passes
            have shorter := congrArg List.length fixed
            simp only [redeliver, passes, Bool.false_eq_true, if_false, List.nil_append, List.length_drop] at shorter
            obtain rfl : pending = [] := List.length_eq_zero_iff.mp (by omega)
            simpa using first

/-- After as many redeliveries as there are entries, the statements that have passed
    are those of the windows. -/
theorem mem_passed_iff (positive : 0 < B) (nothing : fails [] = false) {n : Nat} {pending batch : List α}
    (enough : pending.length ≤ n) (filled : batch ≠ []) :
    batch ∈ passed valid fails B n pending ↔ Passes valid fails B pending batch := by
  refine ⟨passes_of_passed, fun h => ?_⟩
  obtain ⟨m, member⟩ := h.passed
  cases Nat.le_total m n with
  | inl within =>
      obtain ⟨rest, rfl⟩ := Nat.exists_eq_add_of_le within
      rw [passed_add]
      exact List.mem_append_left _ member
  | inr beyond =>
      obtain ⟨rest, rfl⟩ := Nat.exists_eq_add_of_le beyond
      rw [passed_add] at member
      refine (List.mem_append.mp member).resolve_right fun late => filled ?_
      exact passed_fixed positive (redeliver_stable nothing enough) late

/-! ## Statements that fail by single entries -/

section

variable {bad : α → Bool}

/-- No accepted entry stands in the block of a bad one or behind it. -/
def BlocksClear (B : Nat) (bad : α → Bool) (accepted : α → Prop) (pending : List α) : Prop :=
  ∀ i x, pending[i]? = some x → bad x → ∀ y ∈ pending.drop (i / B * B), ¬ accepted y

variable (valid B) in
theorem attempt_zero (pending : List α) : attempt valid B pending 0 = (pending.take B).filter valid := by
  simp [attempt, reach]

/-- A window whose first delivery fails never passes. -/
theorem Clears.of_bad (whole : ∀ batch, fails batch = batch.any bad) {pending : List α}
    (first : fails (attempt valid B pending 0)) (h : Clears valid fails B accepted pending) :
    ∀ x ∈ pending, ¬ accepted x := by
  cases h with
  | rest rested => exact rested
  | window k _ passes =>
      rw [whole, List.any_eq_true] at first
      obtain ⟨x, hx, isBad⟩ := first
      have grown : x ∈ attempt valid B pending k := by
        obtain ⟨member, usable⟩ := List.mem_filter.mp (attempt_zero valid B pending ▸ hx)
        exact List.mem_filter.mpr
          ⟨(List.take_sublist_take_left (le_reach_succ valid B pending k)).subset member, usable⟩
      rw [whole, List.any_eq_false] at passes
      exact absurd isBad (passes x grown)

theorem Clears.drop {pending : List α} (first : fails (attempt valid B pending 0) = false) :
    Clears valid fails B accepted pending ↔ Clears valid fails B accepted (pending.drop B) := by
  have width : reach valid B pending (0 + 1) = B := by simp [reach]
  constructor
  · intro h
    cases h with
    | rest rested => exact .rest fun x hx => rested x (List.mem_of_mem_drop hx)
    | window k failing _ clears =>
        cases k with
        | zero => rwa [width] at clears
        | succ k => simp [failing 0 (Nat.succ_pos k)] at first
  · intro h
    exact .window 0 (fun j hj => absurd hj (Nat.not_lt_zero j)) first (by rwa [width])

theorem BlocksClear.drop (positive : 0 < B) {pending : List α} (first : ∀ x ∈ pending.take B, ¬ bad x) :
    BlocksClear B bad accepted pending ↔ BlocksClear B bad accepted (pending.drop B) := by
  have shift : ∀ i, pending.drop ((B + i) / B * B) = (pending.drop B).drop (i / B * B) := by
    intro i
    rw [List.drop_drop, Nat.add_div_left i positive, Nat.succ_mul, Nat.add_comm]
  constructor
  · intro h i x found isBad
    rw [← shift]
    exact h (B + i) x (List.getElem?_drop ▸ found) isBad
  · intro h i x found isBad
    cases Nat.lt_or_ge i B with
    | inl inside =>
        exact absurd isBad (first x (List.mem_of_getElem? ((List.getElem?_take_of_lt inside).trans found)))
    | inr behind =>
        obtain ⟨j, rfl⟩ := Nat.exists_eq_add_of_le behind
        rw [shift]
        exact h j x (List.getElem?_drop.trans found) isBad

/-- When a statement fails exactly for holding a bad entry, a window passes at
    its first delivery or never, so the list falls into blocks of `B`. -/
theorem clears_iff_blocks (positive : 0 < B) (whole : ∀ batch, fails batch = batch.any bad)
    (usable : ∀ x, bad x → valid x) (pending : List α) :
    Clears valid fails B accepted pending ↔ BlocksClear B bad accepted pending := by
  induction h : pending.length using Nat.strong_induction_on generalizing pending with
  | h len ih =>
      subst h
      cases first : fails (attempt valid B pending 0) with
      | true =>
          constructor
          · intro clears i x _ _ y hy
            exact clears.of_bad whole first y (List.mem_of_mem_drop hy)
          · intro blocks
            rw [whole, List.any_eq_true, attempt_zero] at first
            obtain ⟨x, hx, isBad⟩ := first
            obtain ⟨i, inside, found⟩ := List.getElem_of_mem (List.mem_filter.mp hx).1
            rw [List.length_take] at inside
            have block : i / B * B = 0 := by
              rw [Nat.div_eq_of_lt (by omega), Nat.zero_mul]
            refine .rest fun y hy => blocks i x ?_ isBad y (by rwa [block])
            rw [← List.getElem?_take_of_lt (by omega : i < B), ← found]
            exact List.getElem?_eq_getElem _
      | false =>
          rw [Clears.drop first, BlocksClear.drop positive]
          · cases pending with
            | nil => exact ⟨fun _ => by simp [BlocksClear], fun _ => .rest (by simp)⟩
            | cons x pending => exact ih _ (by simp only [List.length_drop, List.length_cons]; omega) _ rfl
          · rw [whole, List.any_eq_false, attempt_zero] at first
            intro x hx isBad
            exact first x (List.mem_filter.mpr ⟨hx, usable x isBad⟩) isBad

end

end Redelivery
