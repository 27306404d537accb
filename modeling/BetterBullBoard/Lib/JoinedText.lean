import Mathlib.Data.List.Basic
import Std.Data.String.ToInt
import Std.Data.String.ToNat

/-! # Keys joined from text

A key written as `a:b:n` can be taken apart when the first part has no separator
and the last part is a number: the first separator ends `a`, the last one starts
`n`, whatever `b` holds.
-/

namespace JoinedText

variable {α : Type} {c : α} {d : Char}

theorem first_split {a b x y : List α} (ha : c ∉ a) (hb : c ∉ b) (h : a ++ c :: x = b ++ c :: y) :
    a = b ∧ x = y := by
  induction a generalizing b with
  | nil =>
      cases b with
      | nil => exact ⟨rfl, (List.cons.inj h).2⟩
      | cons d b =>
          simp only [List.mem_cons, not_or] at hb
          exact absurd (List.cons.inj h).1 hb.1
  | cons d a ih =>
      cases b with
      | nil =>
          simp only [List.mem_cons, not_or] at ha
          exact absurd (List.cons.inj h).1.symm ha.1
      | cons d' b =>
          obtain ⟨rfl, rest⟩ := List.cons.inj h
          simp only [List.mem_cons, not_or] at ha hb
          obtain ⟨rfl, tail⟩ := ih ha.2 hb.2 rest
          exact ⟨rfl, tail⟩

theorem last_split {a b x y : List α} (hx : c ∉ x) (hy : c ∉ y) (h : a ++ c :: x = b ++ c :: y) :
    a = b ∧ x = y := by
  have reversed := congrArg List.reverse h
  simp only [List.reverse_append, List.reverse_cons, List.append_assoc, List.singleton_append] at reversed
  obtain ⟨tails, heads⟩ := first_split (by simpa using hx) (by simpa using hy) reversed
  exact ⟨List.reverse_injective heads, List.reverse_injective tails⟩

/-- Parts joined once read the same exactly when they are the same, or a
    separator of one second part stands in the other first part. -/
theorem append_cons_eq_iff {a b x y : List α} : a ++ c :: x = b ++ c :: y ↔
    (a = b ∧ x = y) ∨ (∃ m, b = a ++ c :: m ∧ x = m ++ c :: y) ∨ ∃ m, a = b ++ c :: m ∧ y = m ++ c :: x := by
  rw [List.append_eq_append_iff]
  constructor
  · intro h
    cases h with
    | inl longer =>
        obtain ⟨m, rfl, rest⟩ := longer
        cases m with
        | nil => exact .inl ⟨(List.append_nil a).symm, (List.cons.inj rest).2⟩
        | cons d m =>
            obtain ⟨rfl, tail⟩ := List.cons.inj rest
            exact .inr (.inl ⟨m, rfl, tail⟩)
    | inr shorter =>
        obtain ⟨m, rfl, rest⟩ := shorter
        cases m with
        | nil => exact .inl ⟨List.append_nil b, (List.cons.inj rest).2.symm⟩
        | cons d m =>
            obtain ⟨rfl, tail⟩ := List.cons.inj rest
            exact .inr (.inr ⟨m, rfl, tail⟩)
  · rintro (⟨rfl, rfl⟩ | ⟨m, rfl, rfl⟩ | ⟨m, rfl, rfl⟩)
    · exact .inl ⟨[], by simp⟩
    · exact .inl ⟨c :: m, rfl, rfl⟩
    · exact .inr ⟨c :: m, rfl, rfl⟩

theorem nat_text {n : Nat} (h : d ∈ n.repr.toList) : d.isDigit := by
  rw [Nat.repr, String.toList_ofList] at h
  exact Nat.isDigit_of_mem_toDigits (by decide) (by decide) h

theorem int_text {n : Int} (h : d ∈ (toString n).toList) : d.isDigit ∨ d = '-' := by
  cases n with
  | ofNat m => exact .inl (nat_text h)
  | negSucc m =>
      have : d ∈ ("-" ++ (m + 1).repr).toList := h
      rw [String.toList_append] at this
      cases List.mem_append.mp this with
      | inl minus => exact .inr (by simpa using minus)
      | inr rest => exact .inl (nat_text rest)

/-- The same for text joined by a separator of one character. -/
theorem append_eq_iff {sep : String} (single : sep.toList = [d]) {a b x y : String} :
    a ++ sep ++ x = b ++ sep ++ y ↔ (a = b ∧ x = y) ∨ (∃ m, b = a ++ sep ++ m ∧ x = m ++ sep ++ y) ∨
      ∃ m, a = b ++ sep ++ m ∧ y = m ++ sep ++ x := by
  constructor
  · intro same
    have lists := congrArg String.toList same
    simp only [String.toList_append, single, List.append_assoc, List.singleton_append] at lists
    rcases append_cons_eq_iff.mp lists with ⟨first, second⟩ | ⟨m, first, second⟩ | ⟨m, first, second⟩
    · exact .inl ⟨String.toList_injective first, String.toList_injective second⟩
    · exact .inr (.inl ⟨String.ofList m, String.toList_injective (by simp [first, single]),
        String.toList_injective (by simp [second, single])⟩)
    · exact .inr (.inr ⟨String.ofList m, String.toList_injective (by simp [first, single]),
        String.toList_injective (by simp [second, single])⟩)
  · rintro (⟨rfl, rfl⟩ | ⟨m, rfl, rfl⟩ | ⟨m, rfl, rfl⟩) <;> simp only [String.append_assoc]

/-- A number at the end can be taken off. -/
theorem numbered_inj {sep : String} (single : sep.toList = [d]) (plain : d.isDigit = false) {a b : String}
    {m n : Nat} (h : a ++ sep ++ m.repr = b ++ sep ++ n.repr) : a = b ∧ m = n := by
  have noDigit : ∀ n : Nat, d ∉ n.repr.toList := fun n hn => absurd (nat_text hn) (by simp [plain])
  have lists := congrArg String.toList h
  simp only [String.toList_append, single, List.append_assoc, List.singleton_append] at lists
  obtain ⟨first, number⟩ := last_split (noDigit m) (noDigit n) lists
  exact ⟨String.toList_injective first, Nat.repr_injective (String.toList_injective number)⟩

/-- Joined keys are equal only when all three parts are. -/
theorem joined_inj {a b j k : String} {m n : Int} (ha : ':' ∉ a.toList) (hb : ':' ∉ b.toList)
    (h : a ++ ":" ++ j ++ ":" ++ toString m = b ++ ":" ++ k ++ ":" ++ toString n) :
    a = b ∧ j = k ∧ m = n := by
  have plain : ∀ n : Int, ':' ∉ (toString n).toList := by
    intro n hn
    cases int_text hn with
    | inl digit => exact absurd digit (by decide)
    | inr minus => exact absurd minus (by decide)
  have lists := congrArg String.toList h
  simp only [String.toList_append, List.append_assoc] at lists
  obtain ⟨first, rest⟩ := first_split ha hb lists
  obtain ⟨middle, number⟩ := last_split (plain m) (plain n) rest
  exact ⟨String.toList_injective first, String.toList_injective middle,
    Int.repr_injective (String.toList_injective number)⟩

end JoinedText
