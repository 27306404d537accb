import Mathlib.Data.Rat.Init
import BetterBullBoard.Lib.JsMap

/-! # Changed keys

`getChangedKeys` compares the values about to be written with a stored row.
Values are what JSON and the columns hold; the two sides come from different
places, so no object on one side is the same object as one on the other.
-/

namespace BetterBullBoard

inductive JsValue where
  | undefined
  | null
  | bool (b : Bool)
  | number (n : Rat)
  | string (s : String)
  | date (ms : Int)
  | array (items : List JsValue)
  | object (entries : List (String × JsValue))

namespace JsValue

def isObject : JsValue → Bool
  | date _ | array _ | object _ => true
  | _ => false

/-- `Object.keys` -/
def keys : JsValue → List String
  | array items => (List.range items.length).map toString
  | object entries => entries.map (·.1)
  | _ => []

/-- A property an object does not have itself. Its prototype is an object without enumerable keys; what else it
    inherits are functions, and equal to no value. -/
def inherited (key : String) : JsValue := if key = "__proto__" then object [] else undefined

/-- The property of an object. -/
def get (key : String) : JsValue → JsValue
  | array items =>
      if key = "length" then number items.length
      else match (List.range items.length).find? (fun i => toString i = key) with
        | some i => items.getD i undefined
        | none => inherited key
  | object entries => (JsMap.get key entries).getD (inherited key)
  | date _ => inherited key
  | _ => undefined

/-- `===` -/
def strictEquals : JsValue → JsValue → Bool
  | undefined, undefined | null, null => true
  | bool a, bool b => a == b
  | number a, number b => a == b
  | string a, string b => a == b
  | _, _ => false

end JsValue

mutual

def deepEqual : JsValue → JsValue → Bool
  | .object entries, b => b.isObject && entries.length == b.keys.length && everyEntry entries b
  | .array items, b => b.isObject && items.length == b.keys.length && everyItem items 0 b
  | .date _, b => b.isObject && b.keys.length == 0
  | a, b => a.strictEquals b

def everyEntry : List (String × JsValue) → JsValue → Bool
  | [], _ => true
  | (k, v) :: rest, b => deepEqual v (b.get k) && everyEntry rest b

def everyItem : List JsValue → Nat → JsValue → Bool
  | [], _, _ => true
  | v :: rest, i, b => deepEqual v (b.get (toString i)) && everyItem rest (i + 1) b

end

def isChanged (oldObj : List (String × JsValue)) (entry : String × JsValue) : Bool :=
  let oldVal := (JsMap.get entry.1 oldObj).getD .undefined
  if entry.2.isObject then !deepEqual entry.2 oldVal else !entry.2.strictEquals oldVal

def getChangedKeys (newObj oldObj : List (String × JsValue)) : List String :=
  (newObj.filter (isChanged oldObj)).map (·.1)

end BetterBullBoard
