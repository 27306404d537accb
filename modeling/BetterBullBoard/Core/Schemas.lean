import Mathlib.Data.String.Basic
import Mathlib.Logic.Embedding.Basic
import BetterBullBoard.Lib.Keyset

/-! # Inputs of the core package

What `listJobs` and `listQueues` share: the database's comparison of texts, in
which only equal texts are equal, the sort directions, and what the Zod schemas
refuse.
-/

namespace BetterBullBoard

/-- What the database compares texts with. -/
structure Database (κ : Type) where
  collate : String ↪ κ
  ilike : String → String → Bool
  /-- The id a text denotes, when it is a UUID. -/
  parseUuid : String → Option Nat

/-- Texts compared by their characters. -/
def plainDatabase : Database String where
  collate := .refl String
  ilike text pattern := pattern = "%" ++ text ++ "%"
  parseUuid _ := none

inductive SortDirection where
  | asc
  | desc
  deriving DecidableEq

/-- The same in `jobs.ts` and `queues.ts`. -/
def getOrderDirection : Keyset.Direction → SortDirection → SortDirection
  | .next, sortDirection => sortDirection
  | .prev, .desc => .asc
  | .prev, .asc => .desc

/-- An issue of a failed `parse`. The text of an issue of Zod's own is Zod's. -/
inductive ZodIssue where
  | tooSmall (path : List String) (minimum : Int)
  | tooBig (path : List String) (maximum : Int)
  | custom (path : List String) (message : String)
  deriving DecidableEq

/-- What a call throws. -/
inductive CoreError where
  | zod (issues : List ZodIssue)
  | error (message : String)
  deriving DecidableEq

/-- `limit: z.number().min(1).max(100).optional()` -/
def limitIssues : Option Int → List ZodIssue
  | none => []
  | some limit =>
      (if limit < 1 then [.tooSmall ["limit"] 1] else []) ++ (if 100 < limit then [.tooBig ["limit"] 100] else [])

/-- `schema.parse(input)` -/
def parse {α : Type} (issues : α → List ZodIssue) (input : α) : Except CoreError α :=
  match issues input with
  | [] => .ok input
  | issue :: issues => .error (.zod (issue :: issues))

theorem limitIssues_eq_nil {limit : Option Int} : limitIssues limit = [] ↔ ∀ n ∈ limit, 1 ≤ n ∧ n ≤ 100 := by
  cases limit with
  | none => simp [limitIssues]
  | some n =>
      simp only [limitIssues, List.append_eq_nil_iff, ite_eq_right_iff, Option.mem_some_iff, forall_eq']
      simp

/-- An accepted limit, or the default, is positive. -/
theorem limit_pos {limit : Option Int} (accepted : limitIssues limit = []) : 0 < (limit.getD 20).toNat := by
  cases limit with
  | none => decide
  | some n =>
      have bounds := limitIssues_eq_nil.mp accepted n rfl
      simp only [Option.getD_some]
      omega

theorem parse_ok {α : Type} {issues : α → List ZodIssue} {input : α} (accepted : issues input = []) :
    parse issues input = .ok input := by
  simp [parse, accepted]

end BetterBullBoard
