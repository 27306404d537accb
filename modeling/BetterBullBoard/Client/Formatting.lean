import BetterBullBoard.Lib.JsHeap
import BetterBullBoard.Client.Logger

/-! # Messages of console calls

In a job, a patched console method first makes one text of its arguments, and then
relays it. Only the call of `job.log` is inside a `try`.
-/

namespace BetterBullBoard

open JsHeap

/-! ## `decolorize` -/

def between (low high : Char) (c : Char) : Bool := low ≤ c && c ≤ high

/-- What follows a match of `ansiRegex` here. The classes of the repeated characters and of
    the last one have nothing in common, so the match is the longest. -/
def afterAnsi : List Char → Option (List Char)
  | '\x1B' :: c :: rest =>
      if between '@' 'Z' c || between '\\' '_' c then some rest
      else if c = '[' then
        match (rest.dropWhile (between '0' '?')).dropWhile (between ' ' '/') with
        | last :: rest => if between '@' '~' last then some rest else none
        | [] => none
      else none
  | _ => none

theorem afterAnsi_length {text rest : List Char} (found : afterAnsi text = some rest) : rest.length < text.length := by
  unfold afterAnsi at found
  split at found
  · rename_i c after
    split at found
    · obtain rfl := Option.some.inj found
      simp only [List.length_cons]
      omega
    · split at found
      · split at found
        · rename_i last rest' dropped
          split at found
          · obtain rfl := Option.some.inj found
            have shorter := (List.dropWhile_suffix (l := after.dropWhile (between '0' '?')) (between ' ' '/')).length_le
            have short := (List.dropWhile_suffix (l := after) (between '0' '?')).length_le
            rw [dropped, List.length_cons] at shorter
            simp only [List.length_cons]
            omega
          · cases found
        · cases found
      · cases found
  · cases found

def decolorizeChars (text : List Char) : List Char :=
  match _found : afterAnsi text with
  | some rest => decolorizeChars rest
  | none =>
      match text with
      | [] => []
      | c :: rest => c :: decolorizeChars rest
termination_by text.length
decreasing_by
  · exact afterAnsi_length ‹_›
  · simp

def decolorize (input : String) : String := String.ofList (decolorizeChars input.toList)

example : decolorize "\x1B[31mred\x1B[0m" = "red" := by decide +kernel

/-! ## `formatForLogger` -/

variable {ρ : Type} [DecidableEq ρ]

/-- The replacer of `safeStringify`, whose state are the objects it has `seen`. -/
def circular (heap : ρ → Object ρ) (seen : List ρ) : Value ρ → Value ρ × List ρ
  | .primitive p => (.primitive p, seen)
  | .object ref =>
      if (heap ref).callable then (.object ref, seen)
      else if ref ∈ seen then (.primitive (.string "[Circular]"), seen)
      else (.object ref, ref :: seen)

variable [Fintype ρ]

def safeStringify (heap : ρ → Object ρ) (obj : Value ρ) : Throws (Option String) :=
  stringify heap (circular heap) [] obj

/-- A string, but for the message of an error that has no stack, and for `undefined` where
    an object has no JSON text. -/
def formatForLogger (heap : ρ → Object ρ) : Value ρ → Throws (Value ρ)
  | .primitive p => some (.primitive (.string p.text))
  | .object ref => do
      let data := heap ref
      if ← data.instanceOfError then
        let stack ← data.stack
        if stack.truthy then
          let text ← toText heap stack
          let cause ← data.cause
          let tail ← if cause.truthy then (toText heap cause).map ("\n" ++ ·) else some ""
          some (.primitive (.string (text ++ tail)))
        else data.message
      else if data.callable then
        let name ← data.name
        let text ← if name.truthy then toText heap name else some "anonymous"
        some (.primitive (.string ("[Function: " ++ text ++ "]")))
      else
        -- `try`, and what its `catch` returns
        let json ← stringify heap noReplacer () (.object ref) <|> safeStringify heap (.object ref)
        some (.primitive (json.elim .undefined .string))

/-- An element of a list that is joined. -/
def joinText (heap : ρ → Object ρ) : Value ρ → Throws String
  | .primitive .undefined => some ""
  | .primitive .null => some ""
  | value => toText heap value

/-- One argument of a console call. -/
def formatted (heap : ρ → Object ρ) : Value ρ → Throws (Value ρ)
  | .primitive (.string text) => some (.primitive (.string (decolorize text)))
  | param => formatForLogger heap param

def messageOf (heap : ρ → Object ρ) (params : List (Value ρ)) : Throws String := do
  let texts ← params.mapM (formatted heap)
  let texts ← texts.mapM (joinText heap)
  some (" ".intercalate texts)

/-! ## The call -/

/-- What is bound while a job runs, with the flag and the method that `forward` reads
    besides. -/
structure JobConsole extends ConsoleCtx where
  autoEmitJobLogs : Bool
  /-- Whether `job.log` throws. -/
  log : String → Throws Unit

/-- A call of a patched method; what is emitted is emitted by an async function, which
    does not throw, and `original` are the methods that were there before. -/
def consoleCall (heap : ρ → Object ρ) (original : LogLevel → Throws Unit) (clock : LogClock) (now : Int)
    (ctx : Option JobConsole) (level : LogLevel) (params : List (Value ρ)) : Throws (Option LogSyncEvent × LogClock) :=
  match ctx with
  | none => (original level).map fun _ => (none, clock)
  | some ctx => do
      let message ← messageOf heap params
      let relayed := forward clock ⟨some ctx.toConsoleCtx, level, message, now⟩
      if ctx.autoEmitJobLogs then
        match ctx.log message with
        | some () => some ()
        | none => original .error
      original level
      some relayed

/-! ## What can be printed -/

/-- Not a symbol, nor an object that has no primitive or is converted to a symbol. -/
def HasText (heap : ρ → Object ρ) : Value ρ → Prop
  | .primitive p => ∀ description, p ≠ .symbol description
  | .object ref => ∃ p, (heap ref).toPrimitive = some p ∧ ∀ description, p ≠ .symbol description

/-- An error by its `stack` and `cause`, or its `message` when it has no `stack`; a
    function by its `name`; another object by all that `JSON.stringify` reads below it. -/
def Printable (heap : ρ → Object ρ) : Value ρ → Prop
  | .primitive _ => True
  | .object ref =>
      ∃ error, (heap ref).instanceOfError = some error ∧
        if error then
          ∃ stack, (heap ref).stack = some stack ∧
            if stack.truthy then
              HasText heap stack ∧ ∃ cause, (heap ref).cause = some cause ∧ (cause.truthy = true → HasText heap cause)
            else
              ∃ message, (heap ref).message = some message ∧
                (message = .primitive .undefined ∨ message = .primitive .null ∨ HasText heap message)
        else if (heap ref).callable then
          ∃ name, (heap ref).name = some name ∧ (name.truthy = true → HasText heap name)
        else ∃ value, toJson heap "" (.object ref) = some value ∧ ¬ Unserialisable heap value

section Text

variable {heap : ρ → Object ρ}

omit [DecidableEq ρ] [Fintype ρ] in
theorem hasText_iff {value : Value ρ} : HasText heap value ↔ (toText heap value).isSome = true := by
  have primitive : ∀ p : Primitive, (∀ description, p ≠ .symbol description) ↔ p.toText.isSome = true := by
    intro p
    cases p <;> simp [Primitive.toText]
  cases value with
  | primitive p => exact primitive p
  | object ref =>
      simp only [HasText, toText, Option.isSome_bind, primitive]
      cases (heap ref).toPrimitive <;> simp

end Text

/-! ## The fallback

It meets every object below a value once, so it fails exactly when something there has
no text.
-/

section Fallback

variable {heap : ρ → Object ρ} {seen seen' : List ρ} {value : Value ρ} {depth : Nat} {stack : List ρ} {indent : String}
  {text : Option String}

omit [Fintype ρ] in
theorem circular_le (seen : List ρ) (value : Value ρ) : seen ⊆ (circular heap seen value).2 := by
  cases value with
  | primitive p => exact List.Subset.refl seen
  | object ref =>
      simp only [circular]
      split
      · exact List.Subset.refl seen
      · split
        · exact List.Subset.refl seen
        · exact List.subset_cons_self ref seen

omit [Fintype ρ] in
theorem seen_le (done : serialize heap (circular heap) depth stack indent seen value = some (text, seen')) :
    seen ⊆ seen' :=
  serialize_le (I := fun s s' => s ⊆ s') List.Subset.refl (fun _ _ _ => List.Subset.trans) circular_le done

omit [DecidableEq ρ] [Fintype ρ] in
/-- The members of a value are written when each can be, whatever has been seen by then. -/
theorem serializeMembers_isSome {f : List ρ → Value ρ → Throws (Option String × List ρ)}
    {entries : List (String × Throws (Value ρ))}
    (readable : ∀ key read, (key, read) ∈ entries → ∃ inner, read.bind (toJson heap key) = some inner ∧
      ¬ Unserialisable heap inner)
    (writes : ∀ seen' inner, seen ⊆ seen' → ¬ Unserialisable heap inner →
      ∃ text seen'', f seen' inner = some (text, seen'') ∧ seen' ⊆ seen'') :
    (serializeMembers heap f entries seen).isSome = true := by
  induction entries generalizing seen with
  | nil => rfl
  | cons entry rest ih =>
      obtain ⟨key, read⟩ := entry
      obtain ⟨inner, reads, good⟩ := readable key read List.mem_cons_self
      obtain ⟨text, seen₁, written, more⟩ := writes seen inner (List.Subset.refl seen) good
      have others : (serializeMembers heap f rest seen₁).isSome = true :=
        ih (fun key read mem => readable key read (List.mem_cons_of_mem _ mem))
          fun seen' inner later good => writes seen' inner (List.Subset.trans more later) good
      obtain ⟨⟨texts, seen₂⟩, others⟩ := Option.isSome_iff_exists.mp others
      simp [serializeMembers, reads, written, others]

theorem unseen_lt {ref : ρ} (new : ref ∉ seen) (later : ref :: seen ⊆ seen') :
    (seen'.toFinset)ᶜ.card < (seen.toFinset)ᶜ.card := by
  refine Finset.card_lt_card (Finset.ssubset_iff_of_subset ?_ |>.mpr ⟨ref, by simpa using new, ?_⟩)
  · exact Finset.compl_subset_compl.mpr fun q mem => by simpa using later (List.mem_cons_of_mem _ (by simpa using mem))
  · simpa using later List.mem_cons_self

/-- Where everything below has text, the fallback finds it: each object that it goes into
    is one less that it has not seen. -/
theorem fallback_isSome (good : ¬ Unserialisable heap value) (deep : (seen.toFinset)ᶜ.card < depth)
    (around : ∀ ref ∈ stack, ref ∈ seen) :
    (serialize heap (circular heap) depth stack indent seen value).isSome = true := by
  induction depth generalizing seen value stack indent with
  | zero => exact absurd deep (Nat.not_lt_zero _)
  | succ depth ih =>
      have reads : members heap value ≠ none := fun throws => good (.itself throws)
      cases value with
      | primitive p => simpa [serialize, circular, members, Option.isSome_iff_ne_none] using reads
      | object ref =>
          by_cases callable : (heap ref).callable = true
          · simp [serialize, circular, callable]
          by_cases before : ref ∈ seen
          · simp [serialize, circular, callable, before, Primitive.json]
          cases boxed : (heap ref).boxed with
          | some unboxed =>
              simpa [serialize, circular, callable, before, members, boxed, Option.isSome_iff_ne_none] using reads
          | none =>
              have apart : ref ∉ stack := fun mem => before (around ref mem)
              obtain ⟨entries, read⟩ := Option.ne_none_iff_exists'.mp reads
              have own : (heap ref).entries = some entries := by simpa [members, callable, boxed] using read
              have all : (serializeMembers heap (serialize heap (circular heap) depth (ref :: stack) (indent ++ "  "))
                  entries (ref :: seen)).isSome = true := by
                refine serializeMembers_isSome (fun key read' mem => ?_) fun seen' inner later good' => ?_
                · cases answers : read'.bind (toJson heap key) with
                  | none => exact absurd (.member read mem answers) good
                  | some inner => exact ⟨inner, rfl, fun bad => good (.inside read mem answers bad)⟩
                · have less := unseen_lt before later
                  have written : (serialize heap (circular heap) depth (ref :: stack) (indent ++ "  ") seen'
                      inner).isSome = true := ih good' (by omega) fun q mem => later (by grind)
                  obtain ⟨⟨text, seen''⟩, done⟩ := Option.isSome_iff_exists.mp written
                  exact ⟨text, seen'', done, seen_le done⟩
              obtain ⟨⟨texts, seen''⟩, all⟩ := Option.isSome_iff_exists.mp all
              simp [serialize, circular, callable, before, boxed, apart, own, all]

/-- Has text, or is an object that has been seen. -/
def Met (heap : ρ → Object ρ) (seen : List ρ) : Value ρ → Prop
  | .primitive p => p.json ≠ none
  | .object ref => (heap ref).callable = true ∨ ref ∈ seen

/-- Everything that is read in the object has been met. -/
def Expanded (heap : ρ → Object ρ) (seen : List ρ) (ref : ρ) : Prop :=
  ∃ entries, members heap (.object ref) = some entries ∧ ∀ key read, (key, read) ∈ entries →
    ∃ inner, read.bind (toJson heap key) = some inner ∧ Met heap seen inner

omit [DecidableEq ρ] [Fintype ρ] in
theorem Met.mono (met : Met heap seen value) (later : seen ⊆ seen') : Met heap seen' value := by
  cases value with
  | primitive p => exact met
  | object ref => exact met.imp id fun mem => later mem

omit [DecidableEq ρ] [Fintype ρ] in
theorem Expanded.mono {ref : ρ} (expanded : Expanded heap seen ref) (later : seen ⊆ seen') :
    Expanded heap seen' ref := by
  obtain ⟨entries, reads, all⟩ := expanded
  refine ⟨entries, reads, fun key read mem => ?_⟩
  obtain ⟨inner, answers, met⟩ := all key read mem
  exact ⟨inner, answers, met.mono later⟩

omit [DecidableEq ρ] [Fintype ρ] in
/-- Nothing below a value lacks text when all that was met on the way was expanded. -/
theorem Met.good (met : Met heap seen value) (closed : ∀ ref ∈ seen, Expanded heap seen ref) :
    ¬ Unserialisable heap value := by
  intro bad
  -- a value that has members is an object, and one that was expanded
  have expanded : ∀ {value : Value ρ} {entries : List (String × Throws (Value ρ))} {key : String}
      {read : Throws (Value ρ)}, Met heap seen value → members heap value = some entries → (key, read) ∈ entries →
      ∃ inner, read.bind (toJson heap key) = some inner ∧ Met heap seen inner := by
    intro value entries key read met reads mem
    obtain ⟨ref, rfl, plain, -, -⟩ := members_cons reads mem
    obtain ⟨entries', reads', all⟩ := closed ref (met.resolve_left (by simp [plain]))
    obtain rfl := Option.some.inj (reads.symm.trans reads')
    exact all key read mem
  induction bad with
  | @itself value throws =>
      cases value with
      | primitive p => exact met (by simpa [members] using throws)
      | object ref =>
          obtain callable | mem := met
          · simp [members, callable] at throws
          · obtain ⟨entries, reads, -⟩ := closed ref mem
            simp [throws] at reads
  | member reads mem throws =>
      obtain ⟨inner, answers, -⟩ := expanded met reads mem
      simp [throws] at answers
  | inside reads mem answers _ ih =>
      obtain ⟨inner, answers', met'⟩ := expanded met reads mem
      obtain rfl := Option.some.inj (answers.symm.trans answers')
      exact ih met'

omit [DecidableEq ρ] [Fintype ρ] in
/-- The members have been met, and what is new has been expanded, when that is so after
    each of them. -/
theorem met_members {f : List ρ → Value ρ → Throws (Option String × List ρ)}
    (each : ∀ {seen value text seen'}, f seen value = some (text, seen') →
      seen ⊆ seen' ∧ Met heap seen' value ∧ ∀ ref ∈ seen', ref ∉ seen → Expanded heap seen' ref)
    {entries : List (String × Throws (Value ρ))} {texts : List (String × Option String)}
    (done : serializeMembers heap f entries seen = some (texts, seen')) :
    seen ⊆ seen' ∧ (∀ key read, (key, read) ∈ entries → ∃ inner, read.bind (toJson heap key) = some inner ∧
      Met heap seen' inner) ∧ ∀ ref ∈ seen', ref ∉ seen → Expanded heap seen' ref := by
  induction entries generalizing seen texts with
  | nil =>
      obtain ⟨-, rfl⟩ := Prod.mk.inj (Option.some.inj done)
      exact ⟨List.Subset.refl seen, by simp, fun ref mem new => absurd mem new⟩
  | cons entry rest ih =>
      obtain ⟨key, read⟩ := entry
      simp only [serializeMembers, Option.bind_eq_bind, Option.bind_eq_some_iff] at done
      obtain ⟨inner, reads, ⟨text, seen₁⟩, written, ⟨texts', seen₂⟩, others, same⟩ := done
      obtain rfl : seen₂ = seen' := by simpa using congrArg Prod.snd (Option.some.inj same)
      obtain ⟨more, met, expanded⟩ := each written
      obtain ⟨more', rest', expanded'⟩ := ih others
      refine ⟨List.Subset.trans more more', fun key' read' mem => ?_, fun ref mem new => ?_⟩
      · rcases List.mem_cons.mp mem with same | mem
        · obtain ⟨rfl, rfl⟩ := Prod.mk.inj same
          exact ⟨inner, Option.bind_eq_some_iff.mpr reads, met.mono more'⟩
        · exact rest' key' read' mem
      · by_cases earlier : ref ∈ seen₁
        · exact (expanded ref earlier new).mono more'
        · exact expanded' ref mem earlier

omit [Fintype ρ] in
/-- Where the fallback succeeds, it has met the value, and expanded all that it met. -/
theorem met_of_fallback (done : serialize heap (circular heap) depth stack indent seen value = some (text, seen')) :
    seen ⊆ seen' ∧ Met heap seen' value ∧ ∀ ref ∈ seen', ref ∉ seen → Expanded heap seen' ref := by
  induction depth generalizing seen value stack indent text seen' with
  | zero => cases done
  | succ depth ih =>
      have more := seen_le done
      obtain ⟨entries, reads, written⟩ := serialize_eq_some done
      cases value with
      | primitive p =>
          obtain ⟨-, rfl⟩ | ⟨ref, texts, object, -⟩ := written
          · refine ⟨more, fun throws => ?_, fun ref mem new => absurd mem new⟩
            simp [circular, members, throws] at reads
          · cases object
      | object ref =>
          have leaf : seen' = seen → (heap ref).callable = true ∨ ref ∈ seen →
              seen ⊆ seen' ∧ Met heap seen' (.object ref) ∧ ∀ q ∈ seen', q ∉ seen → Expanded heap seen' q := by
            rintro rfl met
            exact ⟨more, met, fun q mem new => absurd mem new⟩
          by_cases callable : (heap ref).callable = true
          · simp only [circular, callable, if_true] at reads written
            obtain rfl : entries = [] := by simpa [members, callable, eq_comm] using reads
            obtain ⟨-, same⟩ | ⟨_, texts, -, -, all⟩ := written
            · exact leaf same (.inl callable)
            · exact leaf (Prod.mk.inj (Option.some.inj all)).2.symm (.inl callable)
          by_cases before : ref ∈ seen
          · simp only [circular, callable, before, if_true] at written
            obtain ⟨-, same⟩ | ⟨_, texts, object, -⟩ := written
            · exact leaf same (.inr before)
            · cases object
          simp only [circular, callable, before, if_false] at reads written
          obtain ⟨rfl, rfl⟩ | ⟨_, texts, object, -, all⟩ := written
          · refine ⟨more, .inr List.mem_cons_self, fun q mem new => ?_⟩
            obtain rfl : q = ref := (List.mem_cons.mp mem).resolve_right new
            exact ⟨[], reads, by simp⟩
          · obtain ⟨later, met, expanded⟩ := met_members (fun written => ih written) all
            refine ⟨more, .inr (later List.mem_cons_self), fun q mem new => ?_⟩
            by_cases same : q = ref
            · exact same ▸ ⟨entries, reads, met⟩
            · exact expanded q mem (by simp [same, new])

end Fallback

/-! ## Messages -/

section Messages

variable {heap : ρ → Object ρ}

/-- The fallback has text exactly for what has text at all. -/
theorem safeStringify_isSome (value : Value ρ) :
    (safeStringify heap value).isSome = true ↔
      ∃ inner, toJson heap "" value = some inner ∧ ¬ Unserialisable heap inner := by
  cases read : toJson heap "" value with
  | none => simp [safeStringify, stringify, read]
  | some inner =>
      simp only [safeStringify, stringify, read, Option.bind_eq_bind, Option.bind_some, Option.some.injEq,
        exists_eq_left']
      constructor
      · intro done
        obtain ⟨text, done⟩ := Option.isSome_iff_exists.mp done
        obtain ⟨⟨_, seen⟩, done, -⟩ := Option.bind_eq_some_iff.mp done
        obtain ⟨-, met, expanded⟩ := met_of_fallback done
        exact met.good fun ref mem => expanded ref mem (by simp)
      · intro good
        have deep : (([] : List ρ).toFinset)ᶜ.card < Fintype.card ρ + 1 := by simp
        have done : (serialize heap (circular heap) (Fintype.card ρ + 1) [] "" [] inner).isSome = true :=
          fallback_isSome good deep (by simp)
        obtain ⟨⟨text, seen⟩, done⟩ := Option.isSome_iff_exists.mp done
        simp [done]

/-- A first attempt that succeeds has met nothing that the fallback could not write. -/
theorem object_isSome (ref : ρ) :
    (stringify heap noReplacer () (.object ref) <|> safeStringify heap (.object ref)).isSome = true ↔
      ∃ inner, toJson heap "" (.object ref) = some inner ∧ ¬ Unserialisable heap inner := by
  cases first : stringify heap noReplacer () (.object ref) with
  | none => exact safeStringify_isSome _
  | some json =>
      refine ⟨fun _ => ?_, fun _ => rfl⟩
      obtain ⟨inner, read, done⟩ := Option.bind_eq_some_iff.mp first
      obtain ⟨⟨_, _⟩, done, -⟩ := Option.bind_eq_some_iff.mp done
      exact ⟨inner, read, not_unserialisable done⟩

omit [DecidableEq ρ] [Fintype ρ] in
theorem joinText_string (text : String) : joinText heap (.primitive (.string text)) = some text := rfl

omit [DecidableEq ρ] [Fintype ρ] in
theorem joinText_isSome (value : Value ρ) :
    (joinText heap value).isSome = true ↔
      value = .primitive .undefined ∨ value = .primitive .null ∨ HasText heap value := by
  rw [hasText_iff]
  cases value with
  | primitive p => cases p <;> simp [joinText, toText, Primitive.toText]
  | object ref => simp [joinText]

/-- An error is printed by its `stack`, with its `cause`. -/
theorem error_isSome (ref : ρ) (error : (heap ref).instanceOfError = some true) :
    ((formatForLogger heap (.object ref)).bind (joinText heap)).isSome = true ↔ Printable heap (.object ref) := by
  simp only [formatForLogger, Printable, error, Option.bind_eq_bind, Option.bind_some, if_true, Option.some.injEq,
    exists_eq_left']
  cases (heap ref).stack with
  | none => simp
  | some stack =>
      simp only [Option.bind_some, Option.some.injEq, exists_eq_left']
      split
      · rw [hasText_iff]
        cases toText heap stack with
        | none => simp
        | some text =>
            cases (heap ref).cause with
            | none => simp
            | some cause =>
                simp only [Option.bind_some, Option.isSome_some, true_and, Option.some.injEq, exists_eq_left',
                  hasText_iff]
                cases cause.truthy <;> cases toText heap cause <;> simp [joinText_string]
      · cases (heap ref).message with
        | none => simp
        | some message => simp [joinText_isSome]

theorem function_isSome (ref : ρ) (error : (heap ref).instanceOfError = some false)
    (callable : (heap ref).callable = true) :
    ((formatForLogger heap (.object ref)).bind (joinText heap)).isSome = true ↔ Printable heap (.object ref) := by
  simp only [formatForLogger, Printable, error, callable, Option.bind_eq_bind, Option.bind_some, Bool.false_eq_true,
    if_false, if_true, Option.some.injEq, exists_eq_left']
  cases (heap ref).name with
  | none =>
      simp only [Option.bind_none, Option.isSome_none, Bool.false_eq_true, reduceCtorEq, false_and, exists_false]
  | some name =>
      simp only [Option.bind_some, Option.some.injEq, exists_eq_left', hasText_iff]
      cases name.truthy with
      | false =>
          simp only [Bool.false_eq_true, if_false, Option.bind_some, joinText_string, Option.isSome_some, false_imp_iff]
      | true =>
          cases toText heap name with
          | none => simp only [if_true, Option.bind_none, Option.isSome_none, Bool.false_eq_true, imp_false, not_true]
          | some text => simp only [if_true, Option.bind_some, joinText_string, Option.isSome_some, imp_self]

theorem plain_isSome (ref : ρ) (error : (heap ref).instanceOfError = some false)
    (callable : (heap ref).callable = false) :
    ((formatForLogger heap (.object ref)).bind (joinText heap)).isSome = true ↔ Printable heap (.object ref) := by
  simp only [formatForLogger, Printable, error, callable, Option.bind_eq_bind, Option.bind_some, Bool.false_eq_true,
    if_false, Option.some.injEq, exists_eq_left', ← object_isSome]
  cases (stringify heap noReplacer () (.object ref) <|> safeStringify heap (.object ref)) with
  | none => simp only [Option.bind_none, Option.isSome_none]
  | some json =>
      cases json with
      | none => simp only [Option.bind_some, Option.elim_none, joinText, Option.isSome_some]
      | some text => simp only [Option.bind_some, Option.elim_some, joinText_string, Option.isSome_some]

/-- An argument gets into the message exactly when it can be printed. -/
theorem formatted_isSome (param : Value ρ) :
    ((formatted heap param).bind (joinText heap)).isSome = true ↔ Printable heap param := by
  cases param with
  | primitive p =>
      simp only [Printable, iff_true]
      cases p <;> rfl
  | object ref =>
      have same : formatted heap (.object ref) = formatForLogger heap (.object ref) := rfl
      rw [same]
      cases error : (heap ref).instanceOfError with
      | none =>
          simp only [formatForLogger, Printable, error, Option.bind_eq_bind, Option.bind_none, Option.isSome_none,
            Bool.false_eq_true, reduceCtorEq, false_and, exists_false]
      | some isError =>
          cases isError with
          | true => exact error_isSome ref error
          | false =>
              cases callable : (heap ref).callable with
              | true => exact function_isSome ref error callable
              | false => exact plain_isSome ref error callable

theorem messageOf_isSome (params : List (Value ρ)) :
    (messageOf heap params).isSome = true ↔ ∀ param ∈ params, Printable heap param := by
  have all : ((params.mapM (formatted heap)).bind fun texts => texts.mapM (joinText heap)).isSome = true ↔
      ∀ param ∈ params, ((formatted heap param).bind (joinText heap)).isSome = true := by
    induction params with
    | nil => simp
    | cons param params ih =>
        rw [List.forall_mem_cons, ← ih]
        cases text : formatted heap param with
        | none => simp [text]
        | some value =>
            cases texts : params.mapM (formatted heap) with
            | none => simp [text, texts]
            | some values =>
                simp only [List.mapM_cons, text, texts, Option.bind_eq_bind, Option.bind_some, Option.pure_def]
                cases joinText heap value <;> cases values.mapM (joinText heap) <;> simp
  have same : messageOf heap params =
      ((params.mapM (formatted heap)).bind fun texts => texts.mapM (joinText heap)).map (" ".intercalate ·) := by
    simp only [messageOf, Option.bind_eq_bind, Option.map_eq_bind, Option.bind_assoc]
    rfl
  simp only [same, Option.isSome_map, all, formatted_isSome]

/-- Inside a job a patched method returns exactly when all its arguments can be printed,
    the methods there before being quiet. -/
theorem consoleCall_returns_iff (heap : ρ → Object ρ) (original : LogLevel → Throws Unit)
    (quiet : ∀ level, original level = some ()) (clock : LogClock) (now : Int) (ctx : JobConsole) (level : LogLevel)
    (params : List (Value ρ)) :
    (consoleCall heap original clock now (some ctx) level params).isSome = true ↔
      ∀ param ∈ params, Printable heap param := by
  rw [← messageOf_isSome, consoleCall]
  cases messageOf heap params with
  | none => simp
  | some message =>
      simp only [quiet, Option.bind_eq_bind, Option.bind_some]
      cases ctx.autoEmitJobLogs <;> cases ctx.log message <;> simp

end Messages

/-- An object that has itself for a property. -/
def selfContained : Unit → Object Unit := fun _ => { entries := some [("self", some (.object ()))] }

example : messageOf selfContained [.primitive (.string "job"), .object ()] =
    some "job \x7b\n  \"self\": \"[Circular]\"\n\x7d" := by decide +kernel

/-- The job `mail:1`, relayed to everything. -/
def mailJobConsole : JobConsole where
  job := ⟨some "1", "mail", 1000⟩
  workerId := "1"
  autoEmitBBBLogs := true
  autoEmitJobLogs := true
  log _ := some ()

theorem selfContained_serialisable : ¬ Unserialisable selfContained (.object ()) := by
  have reads : members selfContained (.object ()) = some [("self", some (.object ()))] := rfl
  intro bad
  generalize same : Value.object () = value at bad
  induction bad with
  | itself throws => simp [← same, reads] at throws
  | member reads' mem throws =>
      obtain rfl := Option.some.inj (reads.symm.trans (same ▸ reads'))
      obtain ⟨rfl, rfl⟩ := Prod.mk.inj (List.mem_singleton.mp mem)
      cases throws
  | inside reads' mem answers _ ih =>
      obtain rfl := Option.some.inj (reads.symm.trans (same ▸ reads'))
      obtain ⟨rfl, rfl⟩ := Prod.mk.inj (List.mem_singleton.mp mem)
      exact ih (Option.some.inj answers)

theorem selfContained_returns :
    (consoleCall selfContained (fun _ => some ()) {} 1500 (some mailJobConsole) .log [.object ()]).isSome = true := by
  refine (consoleCall_returns_iff selfContained _ (fun _ => rfl) _ _ _ _ _).mpr fun param mem => ?_
  obtain rfl := List.mem_singleton.mp mem
  exact ⟨false, rfl, .object (), rfl, selfContained_serialisable⟩

/-- `console.log({ n: 1n })` in a job: the fallback fails as the first attempt does. -/
def withBigint : Unit → Object Unit := fun _ => { entries := some [("n", some (.primitive (.bigint 1)))] }

theorem withBigint_throws :
    ¬ ∀ (ρ : Type) [DecidableEq ρ] [Fintype ρ] (heap : ρ → Object ρ) (original : LogLevel → Throws Unit)
        (clock : LogClock) (now : Int) (ctx : JobConsole) (level : LogLevel) (params : List (Value ρ)),
        (∀ level, original level = some ()) →
          (consoleCall heap original clock now (some ctx) level params).isSome = true := by
  intro never
  exact absurd (never Unit withBigint (fun _ => some ()) {} 1500 mailJobConsole .log [.object ()] fun _ => rfl)
    (by decide +kernel)

end BetterBullBoard
