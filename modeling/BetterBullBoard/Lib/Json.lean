import Mathlib.Tactic.IntervalCases
import BetterBullBoard.Lib.JsMap
import BetterBullBoard.Lib.JsText

/-! # JSON text

`JSON.stringify` of plain values and `JSON.parse`. Numbers are integers: a literal
with a fraction or an exponent is read where it denotes one. Texts have no lone
surrogates. What is written is read back, so a value crosses a text unchanged.
-/

inductive Json where
  | null
  | bool (b : Bool)
  | number (n : Int)
  | string (s : String)
  | array (items : List Json)
  | object (properties : List (String × Json))

namespace Json

/-! ## Writing -/

mutual
def chars : Json → List Char
  | .null => "null".toList
  | .bool b => (toString b).toList
  | .number n => (toString n).toList
  | .string s => (JsText.quote s).toList
  | .array items => '[' :: itemsChars items
  | .object properties => '\x7b' :: propertiesChars properties

def itemsChars : List Json → List Char
  | [] => [']']
  | v :: items => chars v ++ moreItemsChars items

def moreItemsChars : List Json → List Char
  | [] => [']']
  | v :: items => ',' :: (chars v ++ moreItemsChars items)

def propertiesChars : List (String × Json) → List Char
  | [] => ['\x7d']
  | p :: properties => (JsText.quote p.1).toList ++ ':' :: (chars p.2 ++ morePropertiesChars properties)

def morePropertiesChars : List (String × Json) → List Char
  | [] => ['\x7d']
  | p :: properties =>
      ',' :: ((JsText.quote p.1).toList ++ ':' :: (chars p.2 ++ morePropertiesChars properties))
end

/-- `JSON.stringify(value)` -/
def stringify (v : Json) : String := String.ofList v.chars

/-! ## Reading -/

def isSpace (c : Char) : Bool := c = ' ' || c = '\t' || c = '\n' || c = '\r'

def skipSpaces (cs : List Char) : List Char := cs.dropWhile isSpace

def hexValue (c : Char) : Option Nat :=
  if '0' ≤ c ∧ c ≤ '9' then some (c.toNat - '0'.toNat)
  else if 'a' ≤ c ∧ c ≤ 'f' then some (c.toNat - 'a'.toNat + 10)
  else if 'A' ≤ c ∧ c ≤ 'F' then some (c.toNat - 'A'.toNat + 10)
  else none

/-- Four hex digits: a code unit. -/
def codeUnit : List Char → Option (Nat × List Char)
  | a :: b :: c :: d :: rest => do
      let a ← hexValue a
      let b ← hexValue b
      let c ← hexValue c
      let d ← hexValue d
      some (((a * 16 + b) * 16 + c) * 16 + d, rest)
  | _ => none

/-- What follows `\u`: one code unit, or the two of a pair. -/
def unicodeEscape (cs : List Char) : Option (Char × List Char) :=
  (codeUnit cs).bind fun (unit, rest) =>
    if 0xD800 ≤ unit ∧ unit < 0xDC00 then
      match rest with
      | '\\' :: 'u' :: rest =>
          (codeUnit rest).bind fun (low, rest) =>
            if 0xDC00 ≤ low ∧ low < 0xE000 then
              some (Char.ofNat (0x10000 + (unit - 0xD800) * 0x400 + (low - 0xDC00)), rest)
            else none
      | _ => none
    else if 0xDC00 ≤ unit ∧ unit < 0xE000 then none
    else some (Char.ofNat unit, rest)

/-- What follows a backslash. -/
def escape : List Char → Option (Char × List Char)
  | [] => none
  | c :: rest =>
      if c = '"' ∨ c = '\\' ∨ c = '/' then some (c, rest)
      else if c = 'b' then some ('\x08', rest)
      else if c = 'f' then some ('\x0c', rest)
      else if c = 'n' then some ('\n', rest)
      else if c = 'r' then some ('\r', rest)
      else if c = 't' then some ('\t', rest)
      else if c = 'u' then unicodeEscape rest
      else none

/-- One character of a string, not its end. -/
def stringChar : List Char → Option (Char × List Char)
  | [] => none
  | c :: rest => if c = '\\' then escape rest else if c.toNat < 32 then none else some (c, rest)

/-- What follows the opening quote. -/
def stringBody : Nat → List Char → Option (List Char × List Char)
  | 0, _ => none
  | fuel + 1, cs =>
      if cs.head? = some '"' then some ([], cs.tail)
      else (stringChar cs).bind fun (c, rest) => (stringBody fuel rest).map fun (s, rest) => (c :: s, rest)

def readString (cs : List Char) : Option (String × List Char) :=
  match cs with
  | '"' :: rest => (stringBody (rest.length + 1) rest).map fun (s, rest) => (String.ofList s, rest)
  | _ => none

def fraction : List Char → Option (List Char × List Char)
  | '.' :: rest =>
      if rest.takeWhile Char.isDigit = [] then none
      else some (rest.takeWhile Char.isDigit, rest.dropWhile Char.isDigit)
  | cs => some ([], cs)

def exponent : List Char → Option (Int × List Char)
  | c :: rest =>
      if c = 'e' ∨ c = 'E' then
        let (sign, rest) : Int × List Char :=
          match rest with
          | '-' :: rest => (-1, rest)
          | '+' :: rest => (1, rest)
          | rest => (1, rest)
        if rest.takeWhile Char.isDigit = [] then none
        else some (sign * Nat.ofDigitChars 10 (rest.takeWhile Char.isDigit) 0, rest.dropWhile Char.isDigit)
      else some (0, c :: rest)
  | [] => some (0, [])

/-- `digits * 10 ^ power`, if that is an integer. -/
def scaled (digits : Nat) (power : Int) : Option Nat :=
  if 0 ≤ power then some (digits * 10 ^ power.toNat)
  else if digits % 10 ^ power.natAbs = 0 then some (digits / 10 ^ power.natAbs)
  else none

def magnitude (cs : List Char) : Option (Nat × List Char) :=
  let whole := cs.takeWhile Char.isDigit
  if whole = [] ∨ (whole.head? = some '0' ∧ whole.tail ≠ []) then none
  else
    (fraction (cs.dropWhile Char.isDigit)).bind fun (decimals, rest) =>
      (exponent rest).bind fun (power, rest) =>
        (scaled (Nat.ofDigitChars 10 (whole ++ decimals) 0) (power - decimals.length)).map fun n => (n, rest)

def readNumber (cs : List Char) : Option (Int × List Char) :=
  match cs with
  | '-' :: rest => (magnitude rest).map fun (n, rest) => (-(n : Int), rest)
  | cs => (magnitude cs).map fun (n, rest) => ((n : Int), rest)

def word (text : String) (v : Json) (cs : List Char) : Option (Json × List Char) :=
  if text.toList.isPrefixOf cs then some (v, cs.drop text.length) else none

mutual
def value : Nat → List Char → Option (Json × List Char)
  | 0, _ => none
  | fuel + 1, cs =>
      let cs := skipSpaces cs
      match cs.head? with
      | some '"' => (readString cs).map fun (s, rest) => (.string s, rest)
      | some '[' =>
          let cs := skipSpaces cs.tail
          if cs.head? = some ']' then some (.array [], cs.tail)
          else (items fuel cs).map fun (vs, rest) => (.array vs, rest)
      | some '\x7b' =>
          let cs := skipSpaces cs.tail
          if cs.head? = some '\x7d' then some (.object [], cs.tail)
          else (properties fuel cs).map fun (ps, rest) => (.object (JsMap.ofEntries ps), rest)
      | some 'n' => word "null" .null cs
      | some 't' => word "true" (.bool true) cs
      | some 'f' => word "false" (.bool false) cs
      | _ => (readNumber cs).map fun (n, rest) => (.number n, rest)

/-- The items up to the closing bracket. -/
def items : Nat → List Char → Option (List Json × List Char)
  | 0, _ => none
  | fuel + 1, cs =>
      (value fuel cs).bind fun (v, rest) =>
        match skipSpaces rest with
        | ',' :: rest => (items fuel rest).map fun (vs, rest) => (v :: vs, rest)
        | ']' :: rest => some ([v], rest)
        | _ => none

/-- The properties up to the closing brace. -/
def properties : Nat → List Char → Option (List (String × Json) × List Char)
  | 0, _ => none
  | fuel + 1, cs =>
      (readString (skipSpaces cs)).bind fun (key, rest) =>
        match skipSpaces rest with
        | ':' :: rest =>
            (value fuel rest).bind fun (v, rest) =>
              match skipSpaces rest with
              | ',' :: rest => (properties fuel rest).map fun (ps, rest) => ((key, v) :: ps, rest)
              | '\x7d' :: rest => some ([(key, v)], rest)
              | _ => none
        | _ => none
end

/-- `JSON.parse(text)`, none where it throws. Each call consumes a character, so no
    text needs more fuel than its length. -/
def parse (text : String) : Option Json :=
  (value (text.length + 1) text.toList).bind fun (v, rest) => if skipSpaces rest = [] then some v else none

/-! ## Reading what was written -/

theorem control_read {n : Nat} (small : n < 32) (rest : List Char) :
    stringChar ((JsText.quoteChar (Char.ofNat n)).toList ++ rest) = some (Char.ofNat n, rest) ∧
      ((JsText.quoteChar (Char.ofNat n)).toList ++ rest).head? = some '\\' := by
  interval_cases n <;> exact ⟨rfl, rfl⟩

/-- A character that needs no escape, or one after a backslash. -/
theorem quoteChar_printed {c : Char} (printed : 32 ≤ c.toNat) :
    JsText.quoteChar c = if c = '"' then "\\\"" else if c = '\\' then "\\\\" else String.singleton c := by
  have isQuote : c = '"' ↔ c.toNat = 34 := ⟨fun h => h ▸ rfl, fun h => Char.toNat_inj.mp h⟩
  have backslash : c = '\\' ↔ c.toNat = 92 := ⟨fun h => h ▸ rfl, fun h => Char.toNat_inj.mp h⟩
  have large : ¬ c.toNat < 16 := by omega
  have large' : ¬ c.toNat < 32 := by omega
  simp only [isQuote, backslash]
  unfold JsText.quoteChar
  split <;> simp_all
  rw [if_neg (by omega), if_neg (by omega)]

theorem quoteChar_read (c : Char) (rest : List Char) :
    stringChar ((JsText.quoteChar c).toList ++ rest) = some (c, rest) ∧
      ((JsText.quoteChar c).toList ++ rest).head? ≠ some '"' := by
  cases Nat.lt_or_ge c.toNat 32 with
  | inl small =>
      have read := control_read small rest
      rw [Char.ofNat_toNat] at read
      exact ⟨read.1, by simp [read.2]⟩
  | inr printed =>
      rw [quoteChar_printed printed]
      split
      · simp_all [stringChar, escape]
      · split <;> simp_all [stringChar, escape]

theorem quoteChar_ne (c : Char) : (JsText.quoteChar c).toList ≠ [] := by
  intro empty
  have read := (quoteChar_read c []).1
  simp [empty, stringChar] at read

theorem stringBody_read (s : List Char) {fuel : Nat} (enough : s.length < fuel) (rest : List Char) :
    stringBody fuel ((s.flatMap fun c => (JsText.quoteChar c).toList) ++ '"' :: rest) = some (s, rest) := by
  induction s generalizing fuel with
  | nil =>
      cases fuel with
      | zero => simp at enough
      | succ fuel => simp [stringBody]
  | cons c s ih =>
      cases fuel with
      | zero => simp at enough
      | succ fuel =>
          have read := quoteChar_read c ((s.flatMap fun c => (JsText.quoteChar c).toList) ++ '"' :: rest)
          have later := ih (Nat.lt_of_succ_lt_succ enough)
          rw [List.flatMap_cons, List.append_assoc, stringBody, if_neg read.2, read.1, Option.bind_some]
          simp only [later, Option.map_some]

theorem toList_quote (s : String) :
    (JsText.quote s).toList = '"' :: ((s.toList.flatMap fun c => (JsText.quoteChar c).toList) ++ ['"']) := by
  simp [JsText.quote, List.flatMap_map]

theorem length_flatMap_quoteChar (s : List Char) :
    s.length ≤ (s.flatMap fun c => (JsText.quoteChar c).toList).length := by
  induction s with
  | nil => simp
  | cons c s ih =>
      have := List.length_pos_of_ne_nil (quoteChar_ne c)
      rw [List.flatMap_cons, List.length_append, List.length_cons]
      omega

theorem readString_quote (s : String) (rest : List Char) :
    readString ((JsText.quote s).toList ++ rest) = some (s, rest) := by
  have enough := length_flatMap_quoteChar s.toList
  rw [toList_quote, List.cons_append, List.append_assoc, List.singleton_append, readString]
  simp only
  rw [stringBody_read s.toList (by rw [List.length_append]; omega), Option.map_some, String.ofList_toList]

/-- What may follow a value: nothing that a number could go on with. -/
def Ends (rest : List Char) : Prop := ∀ c ∈ rest.head?, c = ',' ∨ c = ']' ∨ c = '\x7d'

theorem Ends.nil : Ends [] := by simp [Ends]

theorem Ends.cons {c : Char} (rest : List Char) (closes : c = ',' ∨ c = ']' ∨ c = '\x7d') : Ends (c :: rest) := by
  simpa [Ends] using closes

theorem Ends.whole {rest : List Char} (ends : Ends rest) :
    rest.takeWhile Char.isDigit = [] ∧ rest.dropWhile Char.isDigit = rest ∧ fraction rest = some ([], rest) ∧
      exponent rest = some (0, rest) ∧ skipSpaces rest = rest := by
  cases rest with
  | nil => exact ⟨rfl, rfl, rfl, rfl, rfl⟩
  | cons c rest =>
      obtain rfl | rfl | rfl := ends c rfl <;> exact ⟨rfl, rfl, rfl, rfl, rfl⟩

/-- Only zero begins with a zero. -/
theorem toDigits_head {n : Nat} (positive : 0 < n) : (Nat.toDigits 10 n).head? ≠ some '0' := by
  induction n using Nat.strong_induction_on with
  | _ n ih =>
      cases Nat.lt_or_ge n 10 with
      | inl small =>
          rw [Nat.toDigits_of_lt_base small]
          interval_cases n <;> decide
      | inr large =>
          rw [Nat.toDigits_of_base_le (by decide) large, List.head?_append_of_ne_nil _ Nat.toDigits_ne_nil]
          exact ih (n / 10) (by omega) (by omega)

theorem toDigits_cons (n : Nat) : ∃ c cs, Nat.toDigits 10 n = c :: cs ∧ c.isDigit = true := by
  obtain ⟨c, cs, text⟩ := List.exists_cons_of_ne_nil (Nat.toDigits_ne_nil (n := n) (b := 10))
  exact ⟨c, cs, text, Nat.isDigit_of_mem_toDigits (b := 10) (n := n) (by decide) (by decide) (by simp [text])⟩

theorem magnitude_digits (n : Nat) {rest : List Char} (ends : Ends rest) :
    magnitude (Nat.toDigits 10 n ++ rest) = some (n, rest) := by
  have digits : ∀ c ∈ Nat.toDigits 10 n, c.isDigit = true := fun c hc =>
    Nat.isDigit_of_mem_toDigits (by decide) (by decide) hc
  obtain ⟨noDigit, stays, noFraction, noExponent, -⟩ := ends.whole
  have plain : ¬ (Nat.toDigits 10 n = [] ∨
      ((Nat.toDigits 10 n).head? = some '0' ∧ (Nat.toDigits 10 n).tail ≠ [])) := by
    cases n with
    | zero => simp [Nat.toDigits_zero]
    | succ n => exact fun h => h.elim Nat.toDigits_ne_nil fun zero => toDigits_head (by omega) zero.1
  rw [magnitude, List.takeWhile_append_of_pos digits, List.dropWhile_append_of_pos digits, noDigit, stays,
    List.append_nil, if_neg plain, noFraction, Option.bind_some]
  simp [noExponent, scaled, Nat.ofDigitChars_ten_toDigits]

theorem toList_ofNat (n : Nat) : (toString (n : Int)).toList = Nat.toDigits 10 n := Nat.toList_repr

theorem toList_negSucc (n : Nat) : (toString (Int.negSucc n)).toList = '-' :: Nat.toDigits 10 (n + 1) := by
  have joined : (toString (Int.negSucc n)).toList = ("-" ++ (n + 1).repr).toList := rfl
  rw [joined, String.toList_append, Nat.toList_repr]
  rfl

theorem number_cons (n : Int) : ∃ c cs, (toString n).toList = c :: cs ∧ (c.isDigit = true ∨ c = '-') := by
  cases n with
  | ofNat n =>
      obtain ⟨c, cs, text, digit⟩ := toDigits_cons n
      exact ⟨c, cs, (toList_ofNat n).trans text, .inl digit⟩
  | negSucc n => exact ⟨_, _, toList_negSucc n, .inr rfl⟩

theorem readNumber_text (n : Int) {rest : List Char} (ends : Ends rest) :
    readNumber ((toString n).toList ++ rest) = some (n, rest) := by
  cases n with
  | ofNat n =>
      rw [Int.ofNat_eq_natCast, toList_ofNat, readNumber, magnitude_digits n ends]
      · rfl
      · intro rest' minus
        obtain ⟨c, cs, text, digit⟩ := toDigits_cons n
        rw [text] at minus
        obtain ⟨rfl, -⟩ := List.cons.inj minus
        exact absurd digit (by decide)
  | negSucc n =>
      rw [toList_negSucc, List.cons_append, readNumber]
      simp only [magnitude_digits (n + 1) ends, Option.map_some]
      rfl

mutual
/-- No object names a property twice. -/
def Distinct : Json → Prop
  | .array items => ItemsDistinct items
  | .object properties => (properties.map Prod.fst).Nodup ∧ PropertiesDistinct properties
  | _ => True

def ItemsDistinct : List Json → Prop
  | [] => True
  | v :: items => Distinct v ∧ ItemsDistinct items

def PropertiesDistinct : List (String × Json) → Prop
  | [] => True
  | p :: properties => Distinct p.2 ∧ PropertiesDistinct properties
end

theorem skipSpaces_cons {c : Char} (visible : isSpace c = false) (cs : List Char) : skipSpaces (c :: cs) = c :: cs := by
  rw [skipSpaces, List.dropWhile_cons_of_neg (by simp [visible])]

/-- What a value begins with. -/
theorem chars_cons (v : Json) : ∃ c cs, v.chars = c :: cs ∧ isSpace c = false ∧ c ≠ ']' := by
  cases v with
  | null => exact ⟨_, _, rfl, rfl, by decide⟩
  | bool b => cases b <;> exact ⟨_, _, rfl, rfl, by decide⟩
  | number n =>
      obtain ⟨c, cs, text, kind⟩ := number_cons n
      refine ⟨c, cs, text, ?_⟩
      cases kind with
      | inr minus => exact minus ▸ ⟨rfl, by decide⟩
      | inl digit =>
          refine ⟨Bool.eq_false_iff.mpr fun space => ?_, fun same => absurd (same ▸ digit) (by decide)⟩
          simp only [isSpace, Bool.or_eq_true, decide_eq_true_eq] at space
          obtain ((rfl | rfl) | rfl) | rfl := space <;> exact absurd digit (by decide)
  | string s => exact ⟨_, _, toList_quote s, rfl, by decide⟩
  | array items => exact ⟨_, _, rfl, rfl, by decide⟩
  | object properties => exact ⟨_, _, rfl, rfl, by decide⟩

theorem value_number (fuel : Nat) (n : Int) {rest : List Char} (ends : Ends rest) :
    value (fuel + 1) ((toString n).toList ++ rest) = some (.number n, rest) := by
  have read := readNumber_text n ends
  obtain ⟨c, cs, text, visible, -⟩ := chars_cons (.number n)
  obtain ⟨c', cs', text', kind⟩ := number_cons n
  rw [chars, text'] at text
  obtain ⟨rfl, rfl⟩ := List.cons.inj text
  rw [text', List.cons_append] at read ⊢
  rw [value]
  simp only [skipSpaces_cons visible, List.head?_cons]
  split
  case h_7 => rw [read, Option.map_some]
  all_goals
    rename_i same
    cases same
    simp at kind

/-- What is written is read back on this fuel, as a value and where a list of items or
    properties goes on. -/
def ReadsValues (fuel : Nat) : Prop :=
  ∀ v : Json, v.Distinct → v.chars.length ≤ fuel → ∀ rest, Ends rest → value fuel (v.chars ++ rest) = some (v, rest)

def ReadsItems (fuel : Nat) : Prop :=
  ∀ (v : Json) (vs : List Json), v.Distinct → ItemsDistinct vs → (v.chars ++ moreItemsChars vs).length ≤ fuel →
    ∀ rest, items fuel (v.chars ++ moreItemsChars vs ++ rest) = some (v :: vs, rest)

def ReadsProperties (fuel : Nat) : Prop :=
  ∀ (key : String) (v : Json) (ps : List (String × Json)), v.Distinct → PropertiesDistinct ps →
    ((JsText.quote key).toList ++ ':' :: (v.chars ++ morePropertiesChars ps)).length ≤ fuel →
    ∀ rest, properties fuel ((JsText.quote key).toList ++ ':' :: (v.chars ++ morePropertiesChars ps) ++ rest) =
      some ((key, v) :: ps, rest)

variable {fuel : Nat}

theorem readsValues_step (readItems : ReadsItems fuel) (readProperties : ReadsProperties fuel) :
    ReadsValues (fuel + 1) := by
  intro v distinct enough rest ends
  cases v with
  | null => rfl
  | bool b => cases b <;> rfl
  | number n => exact value_number fuel n ends
  | string s =>
      have read := readString_quote s rest
      rw [toList_quote, List.cons_append] at read
      rw [chars, toList_quote, List.cons_append, value, skipSpaces_cons rfl, List.head?_cons]
      simp only [read, Option.map_some]
  | array vs =>
      rw [chars, List.cons_append, value, skipSpaces_cons rfl, List.head?_cons]
      cases vs with
      | nil => rfl
      | cons v vs =>
          obtain ⟨c, cs, text, visible, notEnd⟩ := chars_cons v
          rw [Distinct, ItemsDistinct] at distinct
          rw [chars, itemsChars, List.length_cons] at enough
          have read := readItems v vs distinct.1 distinct.2 (Nat.le_of_succ_le_succ enough) rest
          rw [itemsChars, text, List.cons_append, List.cons_append] at *
          simp only [List.tail_cons, skipSpaces_cons visible, List.head?_cons, Option.some.injEq, notEnd, if_false,
            read, Option.map_some]
  | object ps =>
      rw [chars, List.cons_append, value, skipSpaces_cons rfl, List.head?_cons]
      cases ps with
      | nil => rfl
      | cons p ps =>
          have visible : isSpace '"' = false := rfl
          have notEnd : '"' ≠ '\x7d' := by decide
          rw [Distinct, PropertiesDistinct] at distinct
          rw [chars, propertiesChars, List.length_cons] at enough
          have read := readProperties p.1 p.2 ps distinct.2.1 distinct.2.2 (Nat.le_of_succ_le_succ enough) rest
          rw [propertiesChars]
          rw [toList_quote, List.cons_append, List.cons_append] at read ⊢
          simp only [List.tail_cons, skipSpaces_cons visible, List.head?_cons, Option.some.injEq, notEnd, if_false,
            read, Option.map_some, JsMap.ofEntries_of_nodup distinct.1]

theorem readsItems_step (readValues : ReadsValues fuel) (readItems : ReadsItems fuel) : ReadsItems (fuel + 1) := by
  intro v vs distinct later enough rest
  obtain ⟨c, cs, text, -⟩ := chars_cons v
  have nonempty : 0 < v.chars.length := by simp [text]
  have comma : isSpace ',' = false := rfl
  rw [List.length_append] at enough
  rw [List.append_assoc, items]
  cases vs with
  | nil =>
      rw [moreItemsChars, List.length_singleton] at enough
      rw [moreItemsChars, List.singleton_append, readValues v distinct (by omega) _ (.cons rest (.inr (.inl rfl)))]
      rfl
  | cons v' vs =>
      rw [ItemsDistinct] at later
      rw [moreItemsChars, List.length_cons] at enough
      have read := readItems v' vs later.1 later.2 (by omega) rest
      rw [moreItemsChars, List.cons_append, readValues v distinct (by omega) _ (.cons _ (.inl rfl)), Option.bind_some]
      simp only [skipSpaces_cons comma, read, Option.map_some]

theorem readsProperties_step (readValues : ReadsValues fuel) (readProperties : ReadsProperties fuel) :
    ReadsProperties (fuel + 1) := by
  intro key v ps distinct later enough rest
  have named := readString_quote key (':' :: (v.chars ++ morePropertiesChars ps) ++ rest)
  have visible : isSpace '"' = false := rfl
  have colon : isSpace ':' = false := rfl
  have comma : isSpace ',' = false := rfl
  rw [List.length_append, List.length_cons, List.length_append] at enough
  rw [List.append_assoc, properties]
  rw [toList_quote, List.cons_append] at named ⊢
  rw [skipSpaces_cons visible, named, Option.bind_some]
  simp only [List.cons_append, List.append_assoc, skipSpaces_cons colon]
  cases ps with
  | nil =>
      rw [morePropertiesChars, List.singleton_append, readValues v distinct (by omega) _ (.cons rest (.inr (.inr rfl)))]
      rfl
  | cons p ps =>
      rw [PropertiesDistinct] at later
      rw [morePropertiesChars, List.length_cons] at enough
      have read := readProperties p.1 p.2 ps later.1 later.2 (by omega) rest
      simp only [List.append_assoc, List.cons_append] at read
      rw [morePropertiesChars, List.cons_append, readValues v distinct (by omega) _ (.cons _ (.inl rfl)),
        Option.bind_some]
      simp only [List.append_assoc, List.cons_append, skipSpaces_cons comma, read, Option.map_some]

theorem reads (fuel : Nat) : ReadsValues fuel ∧ ReadsItems fuel ∧ ReadsProperties fuel := by
  induction fuel with
  | zero =>
      refine ⟨fun v _ enough => ?_, fun v vs _ _ enough => ?_, fun key v ps _ _ enough => ?_⟩
      · obtain ⟨c, cs, text, -⟩ := chars_cons v
        simp [text] at enough
      · obtain ⟨c, cs, text, -⟩ := chars_cons v
        simp [text] at enough
      · simp at enough
  | succ fuel ih =>
      obtain ⟨readValues, readItems, readProperties⟩ := ih
      exact ⟨readsValues_step readItems readProperties, readsItems_step readValues readItems,
        readsProperties_step readValues readProperties⟩

/-- What is written is read back. -/
theorem parse_stringify {v : Json} (distinct : v.Distinct) : parse v.stringify = some v := by
  have read := (reads (v.chars.length + 1)).1 v distinct (Nat.le_succ _) [] .nil
  rw [List.append_nil] at read
  rw [parse, stringify, String.length_ofList, String.toList_ofList, read]
  rfl

theorem propertiesDistinct_iff {ps : List (String × Json)} : PropertiesDistinct ps ↔ ∀ p ∈ ps, p.2.Distinct := by
  induction ps with
  | nil => simp [PropertiesDistinct]
  | cons p ps ih => simp [PropertiesDistinct, ih]

theorem itemsDistinct_iff {vs : List Json} : ItemsDistinct vs ↔ ∀ v ∈ vs, v.Distinct := by
  induction vs with
  | nil => simp [ItemsDistinct]
  | cons v vs ih => simp [ItemsDistinct, ih]

/-- Values that name no property twice are equal when they are written alike. -/
theorem stringify_inj {v v' : Json} (distinct : v.Distinct) (distinct' : v'.Distinct) :
    v.stringify = v'.stringify ↔ v = v' := by
  refine ⟨fun same => ?_, congrArg stringify⟩
  exact Option.some.inj ((parse_stringify distinct).symm.trans (same ▸ parse_stringify distinct'))

mutual
def decDistinct : (v : Json) → Decidable v.Distinct
  | .null | .bool _ | .number _ | .string _ => .isTrue trivial
  | .array items => decItemsDistinct items
  | .object properties => @instDecidableAnd _ _ _ (decPropertiesDistinct properties)

def decItemsDistinct : (items : List Json) → Decidable (ItemsDistinct items)
  | [] => .isTrue trivial
  | v :: items => @instDecidableAnd _ _ (decDistinct v) (decItemsDistinct items)

def decPropertiesDistinct : (properties : List (String × Json)) → Decidable (PropertiesDistinct properties)
  | [] => .isTrue trivial
  | p :: properties => @instDecidableAnd _ _ (decDistinct p.2) (decPropertiesDistinct properties)
end

instance (v : Json) : Decidable v.Distinct := decDistinct v

def isNull : Json → Bool
  | .null => true
  | _ => false

/-- A parsed value other than `null`. -/
structure Given where
  json : Json
  distinct : json.Distinct
  given : json.isNull = false

namespace Given

theorem json_inj {a b : Given} : a.json = b.json ↔ a = b := by
  cases a
  cases b
  simp

instance : DecidableEq Given := fun a b =>
  decidable_of_iff (a.json.stringify = b.json.stringify) ((stringify_inj a.distinct b.distinct).trans json_inj)

/-- None for `null`; parsing leaves one property of each name. -/
def ofJson (v : Json) : Option Given :=
  if h : v.Distinct ∧ v.isNull = false then some ⟨v, h.1, h.2⟩ else none

@[simp] theorem ofJson_json (g : Given) : ofJson g.json = some g := dif_pos ⟨g.distinct, g.given⟩

end Given

/-! ## Schemas

What a schema reads a value as, none where it refuses. -/

/-- The property of an object. -/
def property (key : String) : Json → Option Json
  | .object properties => JsMap.get key properties
  | _ => none

/-- An object some of whose properties are undefined, as it is written. -/
def record (fields : List (String × Option Json)) : Json := .object (fields.filterMap fun f => f.2.map (f.1, ·))

theorem property_record {fields : List (String × Option Json)} (names : (fields.map Prod.fst).Nodup) (key : String) :
    (record fields).property key = (JsMap.get key fields).join := JsMap.get_given names key

theorem record_distinct {fields : List (String × Option Json)} (names : (fields.map Prod.fst).Nodup)
    (values : ∀ f ∈ fields, ∀ v ∈ f.2, v.Distinct) : (record fields).Distinct := by
  refine ⟨?_, propertiesDistinct_iff.mpr fun p hp => ?_⟩
  · refine names.sublist ?_
    clear names values
    induction fields with
    | nil => exact List.Sublist.slnil
    | cons f fields ih =>
        obtain ⟨key, value⟩ := f
        cases value with
        | none => exact ih.cons _
        | some v => exact ih.cons_cons _
  · obtain ⟨f, hf, given⟩ := List.mem_filterMap.mp hp
    obtain ⟨v, present, rfl⟩ := Option.map_eq_some_iff.mp given
    exact values f hf v present

/-- `z.number()` -/
def asNumber : Json → Option Int
  | .number n => some n
  | _ => none

/-- `z.string()` -/
def asString : Json → Option String
  | .string s => some s
  | _ => none

/-- `.optional()` -/
def optionalProperty {α : Type} (key : String) (read : Json → Option α) (v : Json) : Option (Option α) :=
  match v.property key with
  | none => some none
  | some p => (read p).map some

/-- `.nullable()` -/
def nullable {α : Type} (read : Json → Option α) : Json → Option (Option α)
  | .null => some none
  | p => (read p).map some

def ofOption {α : Type} (write : α → Json) : Option α → Json
  | none => .null
  | some a => write a

/-- `.nullish()` -/
def nullishProperty {α : Type} (key : String) (read : Json → Option α) (v : Json) : Option (Option α) :=
  (v.optionalProperty key (nullable read)).map Option.join

def asStrings : Json → Option (List String)
  | .array items => items.mapM asString
  | _ => none

def strings (texts : List String) : Json := .array (texts.map .string)

theorem asStrings_strings (texts : List String) : asStrings (strings texts) = some texts := by
  rw [strings, asStrings, List.mapM_map]
  induction texts with
  | nil => rfl
  | cons text texts ih =>
      rw [List.mapM_cons, ih]
      rfl

theorem number_distinct (n : Int) : (number n).Distinct := trivial

theorem string_distinct (s : String) : (string s).Distinct := trivial

theorem strings_distinct (texts : List String) : (strings texts).Distinct := by
  rw [strings, Distinct, itemsDistinct_iff]
  intro v hv
  obtain ⟨text, -, rfl⟩ := List.mem_map.mp hv
  trivial

theorem optionalProperty_record {α : Type} {fields : List (String × Option Json)} (names : (fields.map Prod.fst).Nodup)
    {key : String} {read : Json → Option α} (write : α → Json) {a : Option α}
    (held : JsMap.get key fields = some (a.map write)) (reads : ∀ x, read (write x) = some x) :
    (record fields).optionalProperty key read = some a := by
  rw [optionalProperty, property_record names, held]
  cases a with
  | none => rfl
  | some x => simp [reads]

theorem nullishProperty_record {α : Type} {fields : List (String × Option Json)} (names : (fields.map Prod.fst).Nodup)
    {key : String} {read : Json → Option α} (write : α → Json) {a : Option α}
    (held : JsMap.get key fields = some (a.map write)) (reads : ∀ x, read (write x) = some x)
    (given : ∀ x, (write x).isNull = false) : (record fields).nullishProperty key read = some a := by
  rw [nullishProperty, optionalProperty, property_record names, held]
  cases a with
  | none => rfl
  | some x =>
      have given := given x
      have reads := reads x
      simp only [Option.map_some, Option.join_some]
      generalize write x = v at given reads
      cases v <;> simp_all [nullable, isNull]

/-- A property that is written as `null` where there is none. -/
theorem nullishProperty_ofOption {α : Type} {fields : List (String × Option Json)} (names : (fields.map Prod.fst).Nodup)
    {key : String} {read : Json → Option α} (write : α → Json) {a : Option α}
    (held : JsMap.get key fields = some (some (ofOption write a))) (reads : ∀ x, read (write x) = some x)
    (given : ∀ x, (write x).isNull = false) : (record fields).nullishProperty key read = some a := by
  cases a with
  | some x => exact nullishProperty_record names write held reads given
  | none =>
      rw [nullishProperty, optionalProperty, property_record names, held]
      rfl

theorem given_record {fields : List (String × Option Json)} (names : (fields.map Prod.fst).Nodup) {key : String}
    {a : Option Given} (held : JsMap.get key fields = some (a.map (·.json)) ∨
      JsMap.get key fields = some (some (ofOption (·.json) a))) :
    ((record fields).property key).bind Given.ofJson = a := by
  rw [property_record names]
  cases held with
  | inl given =>
      rw [given]
      cases a <;> simp
  | inr given =>
      rw [given]
      cases a with
      | none =>
          have null : Given.ofJson .null = none := by simp [Given.ofJson, isNull]
          exact null
      | some g => exact Given.ofJson_json g

example : (parse " [1, -2.50e1, \"a\\u0041\\n\"] ").map stringify = some "[1,-25,\"aA\\n\"]" := by decide +kernel

end Json
