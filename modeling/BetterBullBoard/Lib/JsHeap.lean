import BetterBullBoard.Lib.JsText
import Mathlib.Data.Fintype.Card

/-! # Objects and `JSON.stringify`

Values whose objects may share and contain each other, an object being what the
language reads from it. A read may run code of the object's owner (an accessor,
`toJSON`, `toString`) and so may throw; what it answers does not change. The engine's
limits on nesting and on the length of a text are left out.
-/

namespace JsHeap

/-- `none` when an exception is thrown. -/
abbrev Throws (α : Type) : Type := Option α

inductive Primitive where
  | undefined
  | null
  | boolean (b : Bool)
  /-- Known by its text. -/
  | number (text : String)
  | string (text : String)
  | bigint (n : Int)
  | symbol (description : String)
  deriving Repr, DecidableEq

inductive Value (ρ : Type) where
  | primitive (p : Primitive)
  | object (ref : ρ)
  deriving Repr, DecidableEq

structure Object (ρ : Type) where
  callable : Bool := false
  isArray : Bool := false
  /-- `object instanceof Error` -/
  instanceOfError : Throws Bool := some false
  stack : Throws (Value ρ) := some (.primitive .undefined)
  cause : Throws (Value ρ) := some (.primitive .undefined)
  message : Throws (Value ρ) := some (.primitive .undefined)
  name : Throws (Value ρ) := some (.primitive .undefined)
  /-- The primitive it is converted to where text is wanted. -/
  toPrimitive : Throws Primitive := some (.string "[object Object]")
  /-- The method `toJSON`, which is given the key, where there is one. -/
  toJSON : Throws (Option (String → Throws (Value ρ))) := some none
  /-- The primitive that `JSON.stringify` takes a `Number`, `String`, `Boolean` or
      `BigInt` object for. -/
  boxed : Option (Throws Primitive) := none
  /-- The enumerable properties of its own, or the elements of an array. -/
  entries : Throws (List (String × Throws (Value ρ))) := some []

namespace Primitive

/-- `String(p)` -/
def text : Primitive → String
  | .undefined => "undefined"
  | .null => "null"
  | .boolean b => if b then "true" else "false"
  | .number text => text
  | .string text => text
  | .bigint n => toString n
  | .symbol description => "Symbol(" ++ description ++ ")"

/-- In a template or a join, where a symbol has no text. -/
def toText : Primitive → Throws String
  | .symbol _ => none
  | p => some p.text

def truthy : Primitive → Bool
  | .undefined => false
  | .null => false
  | .boolean b => b
  | .number text => text != "0" && text != "NaN"
  | .string text => text != ""
  | .bigint n => n != 0
  | .symbol _ => true

/-- The JSON text, where it has one; a `bigint` is an error. -/
def json : Primitive → Throws (Option String)
  | .undefined => some none
  | .null => some (some "null")
  | .boolean b => some (some (if b then "true" else "false"))
  | .number text => some (some (if text ∈ ["NaN", "Infinity", "-Infinity"] then "null" else text))
  | .string text => some (some (JsText.quote text))
  | .bigint _ => none
  | .symbol _ => some none

end Primitive

variable {ρ : Type}

def Value.truthy : Value ρ → Bool
  | .primitive p => p.truthy
  | .object _ => true

def toText (heap : ρ → Object ρ) : Value ρ → Throws String
  | .primitive p => p.toText
  | .object ref => (heap ref).toPrimitive.bind Primitive.toText

/-- What stands for the value under this key. -/
def toJson (heap : ρ → Object ρ) (key : String) : Value ρ → Throws (Value ρ)
  | .primitive p => some (.primitive p)
  | .object ref =>
      (heap ref).toJSON.bind fun
        | some method => method key
        | none => some (.object ref)

/-- The JSON text of an array or an object, from those of its members, indented by two. -/
def layout (isArray : Bool) (indent : String) (members : List (String × Option String)) : String :=
  let inner := indent ++ "  "
  let parts :=
    if isArray then members.map fun (_, text) => text.getD "null"
    else members.filterMap fun (key, text) => text.map fun text => JsText.quote key ++ ": " ++ text
  let (left, right) := if isArray then ("[", "]") else ("\x7b", "\x7d")
  if parts.isEmpty then left ++ right
  else left ++ "\n" ++ inner ++ (",\n" ++ inner).intercalate parts ++ "\n" ++ indent ++ right

variable {S : Type}

/-- The members one after the other, each read under its key. -/
def serializeMembers (heap : ρ → Object ρ) (serialize : S → Value ρ → Throws (Option String × S)) :
    List (String × Throws (Value ρ)) → S → Throws (List (String × Option String) × S)
  | [], s => some ([], s)
  | (key, read) :: rest, s => do
      let value ← read.bind (toJson heap key)
      let (text, s) ← serialize s value
      let (texts, s) ← serializeMembers heap serialize rest s
      some ((key, text) :: texts, s)

variable [DecidableEq ρ]

/-- The replacer has a state, and the stack holds the objects around the value; `depth`
    bounds how many may follow. -/
def serialize (heap : ρ → Object ρ) (replacer : S → Value ρ → Value ρ × S) :
    (depth : Nat) → List ρ → String → S → Value ρ → Throws (Option String × S)
  | 0, _, _, _, _ => none
  | depth + 1, stack, indent, s, value =>
      match replacer s value with
      | (.primitive p, s) => p.json.map fun text => (text, s)
      | (.object ref, s) =>
          if (heap ref).callable then some (none, s)
          else
            match (heap ref).boxed with
            | some unboxed => (unboxed.bind Primitive.json).map fun text => (text, s)
            | none =>
                if ref ∈ stack then none
                else do
                  let entries ← (heap ref).entries
                  let (members, s) ← serializeMembers heap
                    (serialize heap replacer depth (ref :: stack) (indent ++ "  ")) entries s
                  some (some (layout (heap ref).isArray indent members), s)

/-- `JSON.stringify(value, replacer, 2)`. The objects around a value all differ, so the
    depth is always enough. -/
def stringify [Fintype ρ] (heap : ρ → Object ρ) (replacer : S → Value ρ → Value ρ × S) (s : S) (value : Value ρ) :
    Throws (Option String) := do
  let value ← toJson heap "" value
  let (text, _) ← serialize heap replacer (Fintype.card ρ + 1) [] "" s value
  some text

def noReplacer (s : Unit) (value : Value ρ) : Value ρ × Unit := (value, s)

/-! ## Values without JSON text -/

/-- What `JSON.stringify` reads in a value itself. -/
def members (heap : ρ → Object ρ) : Value ρ → Throws (List (String × Throws (Value ρ)))
  | .primitive p => p.json.map fun _ => []
  | .object ref =>
      if (heap ref).callable then some []
      else
        match (heap ref).boxed with
        | some unboxed => (unboxed.bind Primitive.json).map fun _ => []
        | none => (heap ref).entries

/-- Some way down, by members and what their `toJSON` answers, comes to a `bigint` or to
    a read that throws. -/
inductive Unserialisable (heap : ρ → Object ρ) : Value ρ → Prop where
  | itself {value} (throws : members heap value = none) : Unserialisable heap value
  | member {value entries key read} (reads : members heap value = some entries) (mem : (key, read) ∈ entries)
      (throws : read.bind (toJson heap key) = none) : Unserialisable heap value
  | inside {value entries key read inner} (reads : members heap value = some entries) (mem : (key, read) ∈ entries)
      (answers : read.bind (toJson heap key) = some inner) (bad : Unserialisable heap inner) : Unserialisable heap value

section Runs

variable {heap : ρ → Object ρ} {replacer : S → Value ρ → Value ρ × S} {depth : Nat} {stack : List ρ} {indent : String}
  {s s' : S} {value : Value ρ} {text : Option String}

omit [DecidableEq ρ] in
/-- Only an array or object that stands for no primitive has members. -/
theorem members_cons {entries : List (String × Throws (Value ρ))} (reads : members heap value = some entries)
    {entry : String × Throws (Value ρ)} (mem : entry ∈ entries) :
    ∃ ref, value = .object ref ∧ (heap ref).callable = false ∧ (heap ref).boxed = none ∧
      (heap ref).entries = some entries := by
  cases value with
  | primitive p =>
      obtain ⟨_, -, rfl⟩ := Option.map_eq_some_iff.mp reads
      simp at mem
  | object ref =>
      refine ⟨ref, rfl, ?_⟩
      simp only [members] at reads
      split at reads
      · obtain rfl := Option.some.inj reads
        simp at mem
      · rename_i plain
        split at reads
        · obtain ⟨_, -, rfl⟩ := Option.map_eq_some_iff.mp reads
          simp at mem
        · rename_i unboxed
          exact ⟨by simpa using plain, unboxed, reads⟩

/-- What has been written: nothing of the value's own kind failed, and so did no member. -/
theorem serialize_eq_some (done : serialize heap replacer (depth + 1) stack indent s value = some (text, s')) :
    ∃ entries, members heap (replacer s value).1 = some entries ∧
      ((entries = [] ∧ s' = (replacer s value).2) ∨
        ∃ ref texts, (replacer s value).1 = .object ref ∧ ref ∉ stack ∧
          serializeMembers heap (serialize heap replacer depth (ref :: stack) (indent ++ "  ")) entries
            (replacer s value).2 = some (texts, s')) := by
  rw [serialize] at done
  split at done
  · rename_i p s₁ replaced
    obtain ⟨json, written, same⟩ := Option.map_eq_some_iff.mp done
    refine ⟨[], by simp [replaced, members, written], .inl ⟨rfl, ?_⟩⟩
    simpa [replaced, eq_comm] using congrArg Prod.snd same
  · rename_i ref s₁ replaced
    rw [replaced]
    simp only [members]
    split at done
    · rename_i callable
      exact ⟨[], by simp [callable], .inl ⟨rfl, by simpa [eq_comm] using congrArg Prod.snd (Option.some.inj done)⟩⟩
    · rename_i plain
      rw [if_neg plain]
      split at done
      · rename_i unboxed boxed
        obtain ⟨json, written, same⟩ := Option.map_eq_some_iff.mp done
        exact ⟨[], by simp [written], .inl ⟨rfl, by simpa [eq_comm] using congrArg Prod.snd same⟩⟩
      · split at done
        · cases done
        · rename_i apart
          simp only [Option.bind_eq_bind, Option.bind_eq_some_iff] at done
          obtain ⟨entries, reads, ⟨texts, s₂⟩, all, same⟩ := done
          obtain rfl : s₂ = s' := by simpa using congrArg Prod.snd (Option.some.inj same)
          exact ⟨entries, reads, .inr ⟨ref, texts, rfl, apart, all⟩⟩

omit [DecidableEq ρ] in
/-- Every member has been read and written. -/
theorem serializeMembers_mem {f : S → Value ρ → Throws (Option String × S)}
    {entries : List (String × Throws (Value ρ))} {texts : List (String × Option String)}
    (done : serializeMembers heap f entries s = some (texts, s')) {key : String} {read : Throws (Value ρ)}
    (mem : (key, read) ∈ entries) :
    ∃ inner s₁ r, read.bind (toJson heap key) = some inner ∧ f s₁ inner = some r := by
  induction entries generalizing s s' texts with
  | nil => simp at mem
  | cons entry rest ih =>
      simp only [serializeMembers, Option.bind_eq_bind, Option.bind_eq_some_iff] at done
      obtain ⟨inner, reads, ⟨text, s₁⟩, written, ⟨texts', s₂⟩, others, -⟩ := done
      rcases List.mem_cons.mp mem with rfl | mem
      · exact ⟨inner, s, (text, s₁), Option.bind_eq_some_iff.mpr reads, written⟩
      · exact ih others mem

omit [DecidableEq ρ] in
theorem serializeMembers_le {I : S → S → Prop} (refl : ∀ s, I s s) (trans : ∀ a b c, I a b → I b c → I a c)
    {f : S → Value ρ → Throws (Option String × S)} (each : ∀ s value text s', f s value = some (text, s') → I s s')
    {entries : List (String × Throws (Value ρ))} {texts : List (String × Option String)}
    (done : serializeMembers heap f entries s = some (texts, s')) : I s s' := by
  induction entries generalizing s texts with
  | nil =>
      obtain ⟨-, rfl⟩ := Prod.mk.inj (Option.some.inj done)
      exact refl s
  | cons entry rest ih =>
      simp only [serializeMembers, Option.bind_eq_bind, Option.bind_eq_some_iff] at done
      obtain ⟨inner, reads, ⟨text, s₁⟩, written, ⟨texts', s₂⟩, rest', same⟩ := done
      obtain rfl : s₂ = s' := by simpa using congrArg Prod.snd (Option.some.inj same)
      exact trans _ _ _ (each _ _ _ _ written) (ih rest')

/-- What the replacer only moves up, a run moves up. -/
theorem serialize_le {I : S → S → Prop} (refl : ∀ s, I s s) (trans : ∀ a b c, I a b → I b c → I a c)
    (replaces : ∀ s value, I s (replacer s value).2)
    (done : serialize heap replacer depth stack indent s value = some (text, s')) : I s s' := by
  induction depth generalizing stack indent s value text s' with
  | zero => cases done
  | succ depth ih =>
      obtain ⟨entries, -, ⟨-, rfl⟩ | ⟨ref, texts, -, -, all⟩⟩ := serialize_eq_some done
      · exact replaces s value
      · exact trans _ _ _ (replaces s value) (serializeMembers_le refl trans (fun _ _ _ _ done => ih done) all)

/-- Without a replacer every member is written by itself. -/
theorem noReplacer_member {s s' : Unit} {entries : List (String × Throws (Value ρ))} {key : String}
    {read : Throws (Value ρ)} (done : serialize heap noReplacer depth stack indent s value = some (text, s'))
    (reads : members heap value = some entries) (mem : (key, read) ∈ entries) :
    ∃ inner depth stack indent text s', read.bind (toJson heap key) = some inner ∧
      serialize heap noReplacer depth stack indent () inner = some (text, s') := by
  cases depth with
  | zero => cases done
  | succ depth =>
      obtain ⟨entries', reads', written⟩ := serialize_eq_some done
      obtain rfl := Option.some.inj (reads.symm.trans reads')
      obtain ⟨rfl, -⟩ | ⟨ref, texts, -, -, all⟩ := written
      · simp at mem
      · obtain ⟨inner, s₁, ⟨text', s₂⟩, answers, written⟩ := serializeMembers_mem all mem
        exact ⟨inner, _, _, _, text', s₂, answers, written⟩

/-- So everything below a value is written, and nothing there has no text. -/
theorem not_unserialisable {s s' : Unit}
    (done : serialize heap noReplacer depth stack indent s value = some (text, s')) : ¬ Unserialisable heap value := by
  intro bad
  induction bad generalizing depth stack indent text with
  | itself throws =>
      cases depth with
      | zero => cases done
      | succ depth =>
          obtain ⟨entries, reads, -⟩ := serialize_eq_some done
          simp [noReplacer, throws] at reads
  | member reads mem throws =>
      obtain ⟨inner, _, _, _, _, _, answers, -⟩ := noReplacer_member done reads mem
      simp [throws] at answers
  | inside reads mem answers _ ih =>
      obtain ⟨inner, _, _, _, _, _, answers', written⟩ := noReplacer_member done reads mem
      obtain rfl := Option.some.inj (answers.symm.trans answers')
      exact ih written

end Runs

end JsHeap
