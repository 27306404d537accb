import Mathlib.Data.List.Sort
import Mathlib.Order.Lex
import Mathlib.Data.List.Lex

/-! # The order of strings in JavaScript

`<` and the default order of `sort` compare UTF-16 code units. Different strings
have different code units, so sorting makes one list of all orders in which the
same strings can come.
-/

namespace Utf16

def units (c : Char) : List Nat :=
  if c.toNat < 0x10000 then [c.toNat]
  else [0xD800 + (c.toNat - 0x10000) / 0x400, 0xDC00 + (c.toNat - 0x10000) % 0x400]

def codeUnits (s : String) : List Nat := s.toList.flatMap units

theorem toNat_valid (c : Char) : c.toNat < 0xD800 ∨ (0xDFFF < c.toNat ∧ c.toNat < 0x110000) := c.valid

theorem toNat_inj {c c' : Char} (h : c.toNat = c'.toNat) : c = c' := by
  rw [← Char.ofNat_toNat c, h, Char.ofNat_toNat]

/-- The first unit of a character tells whether a second one follows. -/
theorem units_append_inj {c c' : Char} {us us' : List Nat} (h : units c ++ us = units c' ++ us') :
    c = c' ∧ us = us' := by
  have valid := toNat_valid c
  have valid' := toNat_valid c'
  unfold units at h
  split at h <;> split at h <;> simp only [List.cons_append, List.nil_append, List.cons.injEq] at h
  · exact ⟨toNat_inj h.1, h.2⟩
  · omega
  · omega
  · exact ⟨toNat_inj (by omega), h.2.2⟩

theorem codeUnits_inj {s s' : String} (h : codeUnits s = codeUnits s') : s = s' := by
  apply String.toList_inj.mp
  unfold codeUnits at h
  generalize s.toList = cs at h
  generalize s'.toList = cs' at h
  have nonempty : ∀ c, units c ≠ [] := fun c => by unfold units; split <;> simp
  induction cs generalizing cs' with
  | nil =>
      cases cs' with
      | nil => rfl
      | cons c' cs' => simp [nonempty] at h
  | cons c cs ih =>
      cases cs' with
      | nil => simp [nonempty] at h
      | cons c' cs' =>
          obtain ⟨rfl, rest⟩ := units_append_inj h
          rw [ih _ rest]

/-- `names.sort()` -/
def sort (names : List String) : List String := names.insertionSort fun a b => codeUnits a ≤ codeUnits b

theorem mem_sort {names : List String} {x : String} : x ∈ sort names ↔ x ∈ names := List.mem_insertionSort _

theorem sort_perm (names : List String) : (sort names).Perm names := List.perm_insertionSort _ names

instance : Std.Total fun a b : String => codeUnits a ≤ codeUnits b := ⟨fun _ _ => le_total _ _⟩

instance : IsTrans String fun a b => codeUnits a ≤ codeUnits b := ⟨fun _ _ _ => le_trans⟩

theorem sort_eq {names names' : List String} (same : names.Perm names') : sort names = sort names' :=
  ((sort_perm names).trans (same.trans (sort_perm names').symm)).eq_of_pairwise
    (fun _ _ _ _ le ge => codeUnits_inj (le_antisymm le ge)) (List.pairwise_insertionSort _ names)
    (List.pairwise_insertionSort _ names')

end Utf16
