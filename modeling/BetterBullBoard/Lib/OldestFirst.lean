import Mathlib.Data.Finset.Max
import Mathlib.Data.List.Sort
import BetterBullBoard.Lib.Limit
import BetterBullBoard.Lib.Redelivery

/-! # Passes over the oldest rows

A pass reads the `n` oldest rows and takes away those of them that can leave;
the others stay where they are. Among equally old rows any may be read, and a
pass takes the fewest away when those that cannot leave come first. That order
decides how far passes get.
-/

namespace OldestFirst

open Limit

variable {ρ : Type} [DecidableEq ρ] (key : ρ → Int) (leaves : ρ → Bool) (n : Nat)

/-- The rows after a pass that read `read`. -/
def pass (read rows : List ρ) : List ρ := rows.filter fun r => !(leaves r && decide (r ∈ read))

inductive Passes : Nat → List ρ → List ρ → Prop where
  | done (rows) : Passes 0 rows rows
  | next {k rows read rows'} : ReturnsOldest key n rows read → Passes k (pass leaves read rows) rows' →
      Passes (k + 1) rows rows'

/-- Oldest first, and rows that cannot leave before equally old ones that can. -/
def Before (a b : ρ) : Prop := key a < key b ∨ (key a = key b ∧ (leaves a = true → leaves b = true))

instance (a b : ρ) : Decidable (Before key leaves a b) := inferInstanceAs (Decidable (_ ∨ _))

variable {key leaves n} in
theorem Passes.mem {k : Nat} {rows rows' : List ρ} (passes : Passes key leaves n k rows rows') {r : ρ}
    (hr : r ∈ rows') : r ∈ rows := by
  induction passes with
  | done => exact hr
  | next _ _ ih => exact List.mem_of_mem_filter (ih hr)

/-- The rows in the order that holds passes back the most. -/
def worstOrder (rows : List ρ) : List ρ := rows.insertionSort (Before key leaves)

variable {key leaves n}

/-! ## Counting -/

theorem countP_read {rows read : List ρ} (nodup : rows.Nodup) (returned : Returns n rows read) (p : ρ → Bool) :
    read.countP p = rows.countP fun r => p r && decide (r ∈ read) := by
  have same : (rows.filter fun r => decide (r ∈ read)).Perm read := by
    rw [List.perm_ext_iff_of_nodup (nodup.filter _) (returned.nodup nodup)]
    intro r
    simp only [List.mem_filter, decide_eq_true_eq]
    exact ⟨fun h => h.2, fun h => ⟨returned.mem h, h⟩⟩
  rw [← same.countP_eq, List.countP_filter]

variable (leaves) in
/-- Among the rows of any kind that can leave, a pass takes away those it read. -/
theorem countP_pass {rows read : List ρ} (nodup : rows.Nodup) (returned : Returns n rows read) (p : ρ → Bool) :
    rows.countP (fun r => leaves r && p r) =
      read.countP (fun r => leaves r && p r) + (pass leaves read rows).countP (fun r => leaves r && p r) := by
  rw [countP_read nodup returned, pass,
    List.countP_eq_countP_filter_add rows (fun r => leaves r && p r) fun r => leaves r && decide (r ∈ read)]
  congr 1
  rw [List.countP_filter]
  apply List.countP_congr
  intro r _
  simp only [Bool.and_eq_true, decide_eq_true_eq]
  tauto

/-- Rows that cannot leave stay. -/
theorem countP_pass_stays (read rows : List ρ) (p : ρ → Bool) :
    (pass leaves read rows).countP (fun r => !leaves r && p r) = rows.countP fun r => !leaves r && p r := by
  rw [pass, List.countP_filter]
  apply List.countP_congr
  intro r _
  cases leaves r <;> simp

theorem nodup_pass {rows : List ρ} (nodup : rows.Nodup) (read : List ρ) : (pass leaves read rows).Nodup :=
  nodup.filter _

variable (key leaves) in
/-- How many rows up to an age can leave. -/
def leaving (rows : List ρ) (τ : Int) : Nat := rows.countP fun r => leaves r && decide (key r ≤ τ)

variable (key leaves) in
def staying (rows : List ρ) (τ : Int) : Nat := rows.countP fun r => !leaves r && decide (key r ≤ τ)

theorem staying_pass (read rows : List ρ) (τ : Int) :
    staying key leaves (pass leaves read rows) τ = staying key leaves rows τ :=
  countP_pass_stays read rows _

/-- A pass takes the oldest rows that can leave, as many as it read. -/
theorem leaving_pass {rows read : List ρ} (nodup : rows.Nodup) (oldest : ReturnsOldest key n rows read) (τ : Int) :
    leaving key leaves (pass leaves read rows) τ = leaving key leaves rows τ - read.countP leaves := by
  have split := countP_pass leaves nodup oldest.1 fun r => decide (key r ≤ τ)
  have read_le : read.countP (fun r => leaves r && decide (key r ≤ τ)) ≤ read.countP leaves :=
    List.countP_mono_left fun r _ h => (Bool.and_eq_true_iff.mp h).1
  cases left : (pass leaves read rows).find? fun r => leaves r && decide (key r ≤ τ) with
  | none =>
      have gone : (pass leaves read rows).countP (fun r => leaves r && decide (key r ≤ τ)) = 0 :=
        List.countP_eq_zero.mpr fun r hr => List.find?_eq_none.mp left r hr
      simp only [leaving]
      omega
  | some y =>
      -- an old row was left behind, so everything read is at least as old
      have old := List.find?_some left
      obtain ⟨member, unread⟩ := List.mem_filter.mp (List.mem_of_find?_eq_some left)
      simp only [Bool.and_eq_true, decide_eq_true_eq] at old
      simp only [old.1, Bool.true_and, Bool.not_eq_true', decide_eq_false_iff_not] at unread
      have all : read.countP (fun r => leaves r && decide (key r ≤ τ)) = read.countP leaves := by
        apply List.countP_congr
        intro x hx
        have := oldest.2 x hx y member unread
        simp only [Bool.and_eq_true, decide_eq_true_eq, and_iff_left_iff_imp]
        omega
      simp only [leaving]
      omega

variable (leaves) in
theorem countP_leaves_pass {rows read : List ρ} (nodup : rows.Nodup) (returned : Returns n rows read) :
    rows.countP leaves = read.countP leaves + (pass leaves read rows).countP leaves := by
  simpa using countP_pass leaves nodup returned fun _ => true

/-! ## The worst order is the worst -/

variable (key leaves) in
/-- One has what the other has, less some of the oldest rows that can leave. -/
def Ahead (rows worst : List ρ) : Prop :=
  ∃ d, (∀ τ, leaving key leaves rows τ = leaving key leaves worst τ - d) ∧
    rows.countP leaves = worst.countP leaves - d ∧ ∀ τ, staying key leaves rows τ = staying key leaves worst τ

/-- A pass that reads a row that can leave only after everything as old that
    cannot. -/
def StaysFirst (key : ρ → Int) (leaves : ρ → Bool) (rows read : List ρ) : Prop :=
  ∀ x ∈ read, leaves x → ∀ y ∈ rows, leaves y = false → key y ≤ key x → y ∈ read

omit [DecidableEq ρ] in
variable (leaves) in
theorem length_eq_parts (read : List ρ) :
    read.length = read.countP leaves + read.countP fun r => !leaves r := by
  rw [List.length_eq_countP_add_countP leaves]
  simp

variable (key) in
/-- The oldest row that can leave and was not read. -/
theorem exists_oldest_unread {read rows : List ρ} (remains : 0 < (pass leaves read rows).countP leaves) :
    ∃ z ∈ rows, leaves z ∧ z ∉ read ∧ ∀ y ∈ pass leaves read rows, leaves y → key z ≤ key y := by
  obtain ⟨y, hy, canLeave⟩ := List.countP_pos_iff.mp remains
  obtain ⟨z, hz, least⟩ := ((pass leaves read rows).filter leaves).toFinset.exists_min_image key
    ⟨y, List.mem_toFinset.mpr (List.mem_filter.mpr ⟨hy, canLeave⟩)⟩
  obtain ⟨member, canLeave⟩ := List.mem_filter.mp (List.mem_toFinset.mp hz)
  obtain ⟨before, unread⟩ := List.mem_filter.mp member
  refine ⟨z, before, canLeave, by simpa [canLeave] using unread, fun y hy canLeave => ?_⟩
  exact least y (List.mem_toFinset.mpr (List.mem_filter.mpr ⟨hy, canLeave⟩))

variable (leaves) in
/-- A pass that leaves a row behind has filled up with rows no younger, so it
    has read at least `n` less what stays up to that age. -/
theorem read_of_unread {rows read : List ρ} (nodup : rows.Nodup) (oldest : ReturnsOldest key n rows read)
    {z : ρ} (member : z ∈ rows) (unread : z ∉ read) :
    n ≤ read.countP leaves + staying key leaves rows (key z) := by
  have full := oldest.1.full member unread
  have parts := length_eq_parts leaves read
  have stay : read.countP (fun r => !leaves r) ≤ staying key leaves rows (key z) := by
    rw [countP_read nodup oldest.1]
    apply List.countP_mono_left
    intro r _ h
    simp only [Bool.and_eq_true, decide_eq_true_eq] at h ⊢
    exact ⟨h.1, oldest.2 r h.2 z member unread⟩
  omega

/-- A pass in the worst order reads nothing of some age that can leave, or
    everything up to that age that stays. -/
theorem read_of_staysFirst {rows read : List ρ} (nodup : rows.Nodup) (returned : Returns n rows read)
    (last : StaysFirst key leaves rows read) (τ : Int) :
    read.countP leaves ≤ leaving key leaves rows (τ - 1) ∨
      read.countP leaves + staying key leaves rows τ ≤ n := by
  cases Decidable.em (∃ x ∈ read, leaves x ∧ τ ≤ key x) with
  | inl late =>
      obtain ⟨x, hx, canLeave, age⟩ := late
      have parts := length_eq_parts leaves read
      have len := returned.2
      have stay : staying key leaves rows τ ≤ read.countP fun r => !leaves r := by
        rw [countP_read nodup returned]
        apply List.countP_mono_left
        intro r hr h
        simp only [Bool.and_eq_true, decide_eq_true_eq, Bool.not_eq_true'] at h ⊢
        exact ⟨h.1, last x hx canLeave r hr h.1 (by omega)⟩
      omega
  | inr early =>
      refine .inl ?_
      rw [countP_read nodup returned]
      apply List.countP_mono_left
      intro r _ h
      simp only [Bool.and_eq_true, decide_eq_true_eq] at h ⊢
      have young : ¬ τ ≤ key r := fun age => early ⟨r, h.2, h.1, age⟩
      exact ⟨h.1, by omega⟩

/-- Passes never fall behind the worst order. -/
theorem Ahead.pass {rows read worst readWorst : List ρ} (nodup : rows.Nodup) (nodup' : worst.Nodup)
    (ahead : Ahead key leaves rows worst) (oldest : ReturnsOldest key n rows read)
    (oldest' : ReturnsOldest key n worst readWorst) (last : StaysFirst key leaves worst readWorst) :
    Ahead key leaves (OldestFirst.pass leaves read rows) (OldestFirst.pass leaves readWorst worst) := by
  obtain ⟨d, counts, total, orphans⟩ := ahead
  have totals := countP_leaves_pass leaves nodup oldest.1
  have totals' := countP_leaves_pass leaves nodup' oldest'.1
  have enough : readWorst.countP leaves ≤ d + read.countP leaves := by
    cases Nat.eq_zero_or_pos ((OldestFirst.pass leaves read rows).countP leaves) with
    | inl all => omega
    | inr remains =>
        obtain ⟨z, member, -, unread, least⟩ := exists_oldest_unread key remains
        have full := read_of_unread leaves nodup oldest member unread
        have younger : leaving key leaves rows (key z - 1) ≤ read.countP leaves := by
          have gone : leaving key leaves (OldestFirst.pass leaves read rows) (key z - 1) = 0 := by
            apply List.countP_eq_zero.mpr
            intro r hr old
            simp only [Bool.and_eq_true, decide_eq_true_eq] at old
            have := least r hr old.1
            omega
          rw [leaving_pass nodup oldest] at gone
          omega
        rw [counts] at younger
        rw [orphans] at full
        cases read_of_staysFirst nodup' oldest'.1 last (key z) with
        | inl early => omega
        | inr late => omega
  refine ⟨d + read.countP leaves - readWorst.countP leaves, fun τ => ?_, by omega, fun τ => ?_⟩
  · rw [leaving_pass nodup oldest, leaving_pass nodup' oldest', counts]
    omega
  · rw [staying_pass, staying_pass, orphans]

/-! ## The run in the worst order -/

instance : Std.Total (Before key leaves) where
  total a b := by
    unfold Before
    cases Int.lt_trichotomy (key a) (key b) with
    | inl less => exact .inl (.inl less)
    | inr rest =>
        cases rest with
        | inr more => exact .inr (.inl more)
        | inl same => cases leaves a <;> cases leaves b <;> simp [same]

instance : IsTrans ρ (Before key leaves) where
  trans a b c ab bc := by
    unfold Before at *
    cases ab with
    | inl ab => cases bc with
      | inl bc => exact .inl (by omega)
      | inr bc => exact .inl (by omega)
    | inr ab => cases bc with
      | inl bc => exact .inl (by omega)
      | inr bc => exact .inr ⟨ab.1.trans bc.1, fun h => bc.2 (ab.2 h)⟩

variable (leaves n) in
/-- One pass over rows in the worst order. -/
def worstPass (rows : List ρ) : List ρ := Redelivery.redeliver (fun r => !leaves r) (fun _ => true) n rows

theorem pass_take {rows : List ρ} (nodup : rows.Nodup) : pass leaves (rows.take n) rows = worstPass leaves n rows := by
  have apart : ∀ r ∈ rows.drop n, r ∉ rows.take n := by
    intro r hr hr'
    rw [← List.take_append_drop n rows] at nodup
    exact (List.nodup_append.mp nodup).2.2 r hr' r hr rfl
  rw [worstPass, Redelivery.redeliver, pass]
  conv_lhs => rw [← List.take_append_drop n rows, List.filter_append]
  rw [List.take_append_drop]
  congr 1
  · exact List.filter_congr fun r hr => by simp [hr]
  · exact List.filter_eq_self.mpr fun r hr => by simp [apart r hr]

/-- In the worst order the first `n` rows are a pass, and a worst one. -/
theorem take_oldest (n : Nat) {rows worst : List ρ} (same : rows.Perm worst)
    (sorted : worst.Pairwise (Before key leaves)) :
    ReturnsOldest key n rows (worst.take n) ∧ StaysFirst key leaves worst (worst.take n) := by
  have later : ∀ x ∈ worst.take n, ∀ y ∈ worst, y ∉ worst.take n → Before key leaves x y := by
    intro x hx y hy out
    rw [← List.take_append_drop n worst] at sorted hy
    exact (List.pairwise_append.mp sorted).2.2 x hx y ((List.mem_append.mp hy).resolve_left out)
  refine ⟨⟨⟨(List.take_sublist n worst).subperm.trans same.symm.subperm, ?_⟩, fun x hx y hy out => ?_⟩, ?_⟩
  · rw [List.length_take, same.length_eq]
  · cases later x hx y (same.subset hy) out with
    | inl less => omega
    | inr equal => omega
  · intro x hx canLeave y hy stays age
    cases Decidable.em (y ∈ worst.take n) with
    | inl inside => exact inside
    | inr out =>
        cases later x hx y hy out with
        | inl less => omega
        | inr equal => simp [stays] at equal; exact absurd canLeave (by simp [equal.2])

omit [DecidableEq ρ] in
theorem sorted_worstPass {worst : List ρ} (sorted : worst.Pairwise (Before key leaves)) :
    (worstPass leaves n worst).Pairwise (Before key leaves) :=
  sorted.sublist (Redelivery.redeliver_sublist worst)

/-- The worst run is a run. -/
theorem exists_passes (k : Nat) {rows worst : List ρ} (same : rows.Perm worst) (nodup : worst.Nodup)
    (sorted : worst.Pairwise (Before key leaves)) :
    ∃ rows', Passes key leaves n k rows rows' ∧ rows'.Perm ((worstPass leaves n)^[k] worst) := by
  induction k generalizing rows worst with
  | zero => exact ⟨rows, .done rows, same⟩
  | succ k ih =>
      have next : (pass leaves (worst.take n) rows).Perm (worstPass leaves n worst) :=
        pass_take (n := n) nodup ▸ same.filter _
      obtain ⟨rows', passes, perm⟩ := ih next (nodup.sublist (Redelivery.redeliver_sublist worst))
        (sorted_worstPass sorted)
      exact ⟨rows', .next (take_oldest n same sorted).1 passes, perm⟩

/-- Every run stays ahead of it. -/
theorem Passes.ahead {k : Nat} {rows rows' worst : List ρ} (passes : Passes key leaves n k rows rows')
    (nodup : rows.Nodup) (nodup' : worst.Nodup) (sorted : worst.Pairwise (Before key leaves))
    (ahead : Ahead key leaves rows worst) : Ahead key leaves rows' ((worstPass leaves n)^[k] worst) := by
  induction passes generalizing worst with
  | done => exact ahead
  | next oldest _ ih =>
      obtain ⟨oldest', last⟩ := take_oldest n (List.Perm.refl worst) sorted
      have next := ahead.pass nodup nodup' oldest oldest' last
      rw [pass_take nodup'] at next
      exact ih (nodup_pass nodup _) (nodup'.sublist (Redelivery.redeliver_sublist worst)) (sorted_worstPass sorted)
        next

/-- After `k` passes, whichever of the oldest rows they read, nothing that can
    leave is left exactly when nothing that can leave stands behind the first
    rows that `k` passes in the worst order reach. -/
theorem passes_iff_reach {rows : List ρ} (nodup : rows.Nodup) (k : Nat) :
    (∀ rows', Passes key leaves n k rows rows' → ∀ r ∈ rows', leaves r = false) ↔
      ∀ r ∈ (worstOrder key leaves rows).drop
        (Redelivery.reach (fun r => !leaves r) n (worstOrder key leaves rows) k), leaves r = false := by
  have perm : (worstOrder key leaves rows).Perm rows := List.perm_insertionSort _ rows
  have sorted : (worstOrder key leaves rows).Pairwise (Before key leaves) := List.pairwise_insertionSort _ rows
  have nodup' : (worstOrder key leaves rows).Nodup := perm.nodup_iff.mpr nodup
  have squeezed : (worstPass leaves n)^[k] (worstOrder key leaves rows) =
      Redelivery.squeeze (fun r => !leaves r) (worstOrder key leaves rows)
        (Redelivery.reach (fun r => !leaves r) n (worstOrder key leaves rows) k) :=
    @Redelivery.iterate_failing ρ (fun r => !leaves r) (fun _ => true) n _ k fun _ _ => rfl
  constructor
  · intro all r hr
    obtain ⟨rows', passes, same⟩ := exists_passes (n := n) k perm.symm nodup' sorted
    refine all rows' passes r (same.symm.subset ?_)
    rw [squeezed]
    exact List.mem_append_right _ hr
  · intro behind rows' passes r hr
    have start : Ahead key leaves rows (worstOrder key leaves rows) :=
      ⟨0, fun τ => (perm.countP_eq _).symm, (perm.countP_eq _).symm, fun τ => (perm.countP_eq _).symm⟩
    obtain ⟨d, -, total, -⟩ := passes.ahead nodup nodup' sorted start
    have gone : ((worstPass leaves n)^[k] (worstOrder key leaves rows)).countP leaves = 0 := by
      rw [squeezed]
      apply List.countP_eq_zero.mpr
      intro r hr
      cases List.mem_append.mp hr with
      | inl inside => simpa using (List.mem_filter.mp inside).2
      | inr outside => simp [behind r outside]
    rw [gone, Nat.zero_sub] at total
    simpa using List.countP_eq_zero.mp total r hr

end OldestFirst
