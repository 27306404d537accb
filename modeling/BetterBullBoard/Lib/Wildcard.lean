import Mathlib.Data.List.Infix

/-! # Patterns with wildcards

A pattern is a list of wildcards and characters. What it matches is read off its
parts: a pattern put together of two matches what the first and then the second
match.
-/

namespace Wildcard

inductive Token where
  /-- any text, the empty one included -/
  | any
  /-- any character -/
  | one
  | char (c : Char)
  deriving DecidableEq

def literal (text : String) : List Token := text.toList.map .char

def matchesChars : List Token → List Char → Bool
  | [], text => text.isEmpty
  | .any :: pattern, text => text.tails.any (matchesChars pattern)
  | .one :: _, [] => false
  | .one :: pattern, _ :: text => matchesChars pattern text
  | .char _ :: _, [] => false
  | .char d :: pattern, c :: text => d = c && matchesChars pattern text

def Matches (pattern : List Token) (text : String) : Prop := matchesChars pattern text.toList = true

instance (pattern : List Token) (text : String) : Decidable (Matches pattern text) :=
  inferInstanceAs (Decidable (_ = true))

variable {p q : List Token} {text : List Char}

theorem matchesChars_any : matchesChars (.any :: p) text ↔ ∃ a b, text = a ++ b ∧ matchesChars p b := by
  rw [matchesChars, List.any_eq_true]
  constructor
  · rintro ⟨b, tail, matched⟩
    obtain ⟨a, rfl⟩ := (List.mem_tails _ _).mp tail
    exact ⟨a, b, rfl, matched⟩
  · rintro ⟨a, b, rfl, matched⟩
    exact ⟨b, (List.mem_tails _ _).mpr (List.suffix_append a b), matched⟩

theorem matchesChars_append :
    matchesChars (p ++ q) text ↔ ∃ a b, text = a ++ b ∧ matchesChars p a ∧ matchesChars q b := by
  induction p generalizing text with
  | nil => simp [matchesChars]
  | cons token p ih =>
      cases token with
      | any =>
          simp only [List.cons_append, matchesChars_any, ih]
          constructor
          · rintro ⟨a, _, rfl, b, c, rfl, first, second⟩
            exact ⟨a ++ b, c, (List.append_assoc a b c).symm, ⟨a, b, rfl, first⟩, second⟩
          · rintro ⟨_, c, rfl, ⟨a, b, rfl, first⟩, second⟩
            exact ⟨a, b ++ c, List.append_assoc a b c, b, c, rfl, first, second⟩
      | one =>
          cases text with
          | nil =>
              refine iff_of_false Bool.false_ne_true ?_
              rintro ⟨a, b, empty, first, -⟩
              rw [(List.append_eq_nil_iff.mp empty.symm).1] at first
              cases first
          | cons c text =>
              rw [List.cons_append, matchesChars, ih]
              constructor
              · rintro ⟨a, b, rfl, first, second⟩
                exact ⟨c :: a, b, rfl, first, second⟩
              · rintro ⟨_ | ⟨d, a⟩, b, same, first, second⟩
                · cases first
                · obtain ⟨rfl, rfl⟩ := List.cons.inj same
                  exact ⟨a, b, rfl, first, second⟩
      | char d =>
          cases text with
          | nil =>
              refine iff_of_false Bool.false_ne_true ?_
              rintro ⟨a, b, empty, first, -⟩
              rw [(List.append_eq_nil_iff.mp empty.symm).1] at first
              cases first
          | cons c text =>
              rw [List.cons_append, matchesChars, Bool.and_eq_true, decide_eq_true_iff, ih]
              constructor
              · rintro ⟨rfl, a, b, rfl, first, second⟩
                exact ⟨d :: a, b, rfl, by simpa [matchesChars] using first, second⟩
              · rintro ⟨_ | ⟨e, a⟩, b, same, first, second⟩
                · cases first
                · obtain ⟨rfl, rfl⟩ := List.cons.inj same
                  rw [matchesChars, Bool.and_eq_true, decide_eq_true_iff] at first
                  exact ⟨first.1, a, b, rfl, first.2, second⟩

theorem matchesChars_chars (chars : List Char) : matchesChars (chars.map .char) text ↔ text = chars := by
  induction chars generalizing text with
  | nil => simp [matchesChars]
  | cons d chars ih =>
      cases text with
      | nil => simp [matchesChars]
      | cons c text =>
          rw [List.map_cons, matchesChars, Bool.and_eq_true, decide_eq_true_iff, ih, List.cons.injEq]
          exact and_congr_left' eq_comm

theorem matches_literal {part text : String} : Matches (literal part) text ↔ text = part := by
  rw [Matches, literal, matchesChars_chars, String.toList_inj]

/-- Text between two patterns. -/
theorem matches_append {text : String} :
    Matches (p ++ q) text ↔ ∃ a b, text = a ++ b ∧ Matches p a ∧ Matches q b := by
  rw [Matches, matchesChars_append]
  constructor
  · rintro ⟨a, b, split, first, second⟩
    refine ⟨String.ofList a, String.ofList b, ?_, by simpa [Matches] using first, by simpa [Matches] using second⟩
    rw [← String.toList_inj, split, String.toList_append, String.toList_ofList, String.toList_ofList]
  · rintro ⟨a, b, rfl, first, second⟩
    exact ⟨a.toList, b.toList, String.toList_append, first, second⟩

theorem matches_any {text : String} : Matches [.any] text := by
  rw [Matches, matchesChars_any]
  exact ⟨text.toList, [], (List.append_nil _).symm, rfl⟩

end Wildcard
