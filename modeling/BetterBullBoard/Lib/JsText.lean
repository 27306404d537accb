/-! # Text and white space

The parts of the language's string library that split and trim at white space
and at separators, and the text that `JSON.stringify` writes for text and flat
objects. Texts are read as lists of characters.
-/

namespace JsText

/-- `\s` -/
def isSpace (c : Char) : Bool :=
  let n := c.toNat
  (9 ≤ n && n ≤ 13) || n = 0x20 || n = 0xA0 || n = 0x1680 || (0x2000 ≤ n && n ≤ 0x200A) ||
    n = 0x2028 || n = 0x2029 || n = 0x202F || n = 0x205F || n = 0x3000 || n = 0xFEFF

def splitChars : List Char → List (List Char)
  | [] => [[]]
  | c :: rest =>
      if isSpace c then
        -- a run of white space separates once, where it ends
        match rest with
        | d :: _ => if isSpace d then splitChars rest else [] :: splitChars rest
        | [] => [[], []]
      else
        match splitChars rest with
        | word :: words => (c :: word) :: words
        | [] => [[c]]

/-- `text.split(/\s+/)` -/
def splitSpaces (text : String) : List String := (splitChars text.toList).map String.ofList

/-- `text.trim()` -/
def trim (text : String) : String :=
  String.ofList ((text.toList.dropWhile isSpace).reverse.dropWhile isSpace).reverse

/-- `text.split(separator)[0]` -/
def upTo (separator : Char) (text : String) : String := String.ofList (text.toList.takeWhile (· != separator))

def startsWith (start text : String) : Bool := start.toList.isPrefixOf text.toList

def includesChars (part : List Char) : List Char → Bool
  | [] => part.isEmpty
  | c :: rest => part.isPrefixOf (c :: rest) || includesChars part rest

/-- `text.includes(part)` -/
def includes (part text : String) : Bool := includesChars part.toList text.toList

/-- `text.slice(count)` -/
def slice (count : Nat) (text : String) : String := String.ofList (text.toList.drop count)

/-! ## `JSON.stringify` -/

def quoteChar (c : Char) : String :=
  match c.toNat with
  | 8 => "\\b"
  | 9 => "\\t"
  | 10 => "\\n"
  | 12 => "\\f"
  | 13 => "\\r"
  | 34 => "\\\""
  | 92 => "\\\\"
  | n =>
      if n < 16 then "\\u000" ++ String.ofList (Nat.toDigits 16 n)
      else if n < 32 then "\\u00" ++ String.ofList (Nat.toDigits 16 n)
      else String.singleton c

def quote (text : String) : String := "\"" ++ String.join (text.toList.map quoteChar) ++ "\""

/-- The values are written already. -/
def object (properties : List (String × String)) : String :=
  "\x7b" ++ ",".intercalate (properties.map fun p => quote p.1 ++ ":" ++ p.2) ++ "\x7d"

example : object [("id", quote "a\n\x01")] = "\x7b\"id\":\"a\\n\\u0001\"\x7d" := by decide +kernel

example : splitSpaces " a \t b" = ["", "a", "b"] := by decide

end JsText
