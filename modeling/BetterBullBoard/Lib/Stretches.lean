import Mathlib.Data.List.Nodup
import Mathlib.Data.List.SplitBy

/-! # Numbering within stretches

A counter that goes up while a key stays the same and restarts when it changes
gives every element its place in its stretch of equal keys.
-/

namespace Stretches

variable {α β κ : Type}

section

variable [DecidableEq κ] (key : α → κ)

/-- The maximal stretches of elements of one key. -/
def stretches (l : List α) : List (List α) := l.splitBy fun a b => key a = key b

/-- What the counter gives, after it gave `counter` to an element of key `last`. -/
def numberFrom (last : κ) (counter : Nat) : List α → List (α × Nat)
  | [] => []
  | a :: l =>
      if key a = last then (a, counter + 1) :: numberFrom last (counter + 1) l
      else (a, 0) :: numberFrom (key a) 0 l

/-- The stretch being read is `g`, backwards, and then `a`. -/
private theorem loop_numbered (l : List α) (a : α) (g : List α) (gs : List (List α)) :
    (List.splitBy.loop (fun a b => decide (key a = key b)) l a g gs).flatMap List.zipIdx =
      gs.reverse.flatMap List.zipIdx ++ g.reverse.zipIdx ++ (a, g.length) :: numberFrom key (key a) g.length l := by
  induction l generalizing a g gs with
  | nil => simp [List.splitBy.loop, numberFrom, List.zipIdx_append]
  | cons b l ih =>
      simp only [List.splitBy.loop, numberFrom]
      by_cases same : key a = key b
      · simp only [same, decide_true, if_true, ih]
        simp [List.zipIdx_append]
      · simp only [same, Ne.symm same, decide_false, if_false, ih]
        simp [List.zipIdx_append]

/-- Numbers are places. -/
theorem stretches_numbered (a : α) (l : List α) :
    (stretches key (a :: l)).flatMap List.zipIdx = (a, 0) :: numberFrom key (key a) 0 l := by
  have h := loop_numbered key l a [] []
  simp only [List.reverse_nil, List.flatMap_nil, List.zipIdx_nil, List.nil_append, List.length_nil] at h
  exact h

end

/-- No place holds one tag in both. -/
def Apart (tag : α → Option β) (a b : List α) : Prop :=
  ∀ (k : Nat) (x : β), a[k]?.bind tag = some x → b[k]?.bind tag ≠ some x

/-- The tags, each with the number of its element. -/
def tagged (tag : α → Option β) (l : List (α × Nat)) : List (β × Nat) :=
  l.filterMap fun p => (tag p.1).map (·, p.2)

variable {tag : α → Option β}

theorem mem_tagged_zipIdx {l : List α} {x : β} {k : Nat} :
    (x, k) ∈ tagged tag l.zipIdx ↔ l[k]?.bind tag = some x := by
  simp only [tagged, List.mem_filterMap, Prod.exists, List.mk_mem_zipIdx_iff_getElem?, Option.map_eq_some_iff,
    Prod.mk.injEq, Option.bind_eq_some_iff]
  constructor
  · rintro ⟨a, i, found, y, tagged, rfl, rfl⟩
    exact ⟨a, found, tagged⟩
  · rintro ⟨a, found, tagged⟩
    exact ⟨a, k, found, x, tagged, rfl, rfl⟩

theorem nodup_tagged_zipIdx (l : List α) : (tagged tag l.zipIdx).Nodup := by
  have places : (l.zipIdx.map Prod.snd).Nodup := by
    rw [List.zipIdx_map_snd]
    exact List.nodup_range'
  refine List.pairwise_filterMap.mpr ((List.pairwise_map.mp places).imp fun {p q} apart => ?_)
  intro x hx y hy same
  obtain ⟨_, -, rfl⟩ := Option.map_eq_some_iff.mp hx
  obtain ⟨_, -, rfl⟩ := Option.map_eq_some_iff.mp hy
  exact apart (Prod.mk.inj same).2

/-- Places tell the tags of several lists apart exactly when no two of the lists
    hold one tag at one place. -/
theorem nodup_places (ls : List (List α)) :
    (tagged tag (ls.flatMap List.zipIdx)).Nodup ↔ ls.Pairwise (Apart tag) := by
  have split : tagged tag (ls.flatMap List.zipIdx) = ls.flatMap fun l => tagged tag l.zipIdx :=
    List.filterMap_flatMap
  rw [split, List.nodup_flatMap, and_iff_right fun l _ => nodup_tagged_zipIdx l]
  refine iff_of_eq (congrArg (fun R => List.Pairwise R ls) ?_)
  funext a b
  refine propext ⟨fun disjoint k x first second => ?_, fun apart => ?_⟩
  · exact disjoint (mem_tagged_zipIdx.mpr first) (mem_tagged_zipIdx.mpr second)
  · intro p first second
    exact apart p.2 p.1 (mem_tagged_zipIdx.mp first) (mem_tagged_zipIdx.mp second)

end Stretches
