import RoleMining.Number
import RoleMining.Text.Quoted

/-!
# JSON values

The values that configurations, requests and answers are made of. Integers are unbounded and
distinct from floating-point numbers; texts are made of Unicode scalar values, so no surrogate
stands in one; an object keeps its fields in the order they were written.
-/
namespace RoleMining

inductive Json where
  | null
  | bool (b : Bool)
  | int (n : Int)
  | float (x : Binary64)
  | str (s : String)
  | list (items : List Json)
  | object (fields : List (String × Json))

namespace Json

instance : Inhabited Json := ⟨.null⟩

def ofNumber : Number → Json
  | .int n => .int n
  | .float x => .float x

/-- A Boolean is not a number. -/
def number? : Json → Option Number
  | .int n => some (.int n)
  | .float x => some (.float x)
  | _ => none

def ofStrings (items : List String) : Json := .list (items.map .str)

def ofNat (n : Nat) : Json := .int n

/-- Absent, zero and empty values; they stand for "nothing given". -/
def isEmptyValue : Json → Bool
  | .null => true
  | .bool b => !b
  | .int n => n == 0
  | .float x => x.same 0
  | .str s => s.isEmpty
  | .list items => items.isEmpty
  | .object fields => fields.isEmpty

/-- What a message calls the type of a value. -/
def typeName : Json → String
  | .null => "NoneType"
  | .bool _ => "bool"
  | .int _ => "int"
  | .float _ => "float"
  | .str _ => "str"
  | .list _ => "list"
  | .object _ => "dict"

def isObject : Json → Bool
  | .object _ => true
  | _ => false

def field? (name : String) : Json → Option Json
  | .object fields => fields.lookup name
  | _ => none

mutual

/-- Equality of values read from one text: numbers compare by value within their kind, and
not-a-number equals nothing. -/
def same : Json → Json → Bool
  | .null, .null => true
  | .bool a, .bool b => a == b
  | .int a, .int b => a == b
  | .float x, .float y => x.same y
  | .str a, .str b => a == b
  | .list xs, .list ys => sameItems xs ys
  | .object xs, .object ys => sameFields xs ys
  | _, _ => false

def sameItems : List Json → List Json → Bool
  | [], [] => true
  | x :: xs, y :: ys => same x y && sameItems xs ys
  | _, _ => false

def sameFields : List (String × Json) → List (String × Json) → Bool
  | [], [] => true
  | (a, x) :: xs, (b, y) :: ys => a == b && same x y && sameFields xs ys
  | _, _ => false

end

mutual

/-- Whether a value and all that stands in it pass a test. -/
def everywhere (test : Json → Bool) : Json → Bool
  | .list items => test (.list items) && everywhereItems test items
  | .object fields => test (.object fields) && everywhereFields test fields
  | value => test value

def everywhereItems (test : Json → Bool) : List Json → Bool
  | [] => true
  | item :: rest => everywhere test item && everywhereItems test rest

def everywhereFields (test : Json → Bool) : List (String × Json) → Bool
  | [] => true
  | (_, value) :: rest => everywhere test value && everywhereFields test rest

end

mutual

/-- How many lists and objects there are around the innermost value. -/
def depth : Json → Nat
  | .list items => depthOfItems items + 1
  | .object fields => depthOfFields fields + 1
  | _ => 0

def depthOfItems : List Json → Nat
  | [] => 0
  | item :: rest => max (depth item) (depthOfItems rest)

def depthOfFields : List (String × Json) → Nat
  | [] => 0
  | (_, value) :: rest => max (depth value) (depthOfFields rest)

end

mutual

/-- The value as messages quote it: texts in quotes, lists in brackets, objects in braces. -/
def quoted : Json → String
  | .null => "None"
  | .bool b => if b then "True" else "False"
  | .int n => Text.ofInt n
  | .float x => x.toText
  | .str s => Text.quoted s
  | .list items => "[" ++ ", ".intercalate (quotedItems items) ++ "]"
  | .object fields => "\x7b" ++ ", ".intercalate (quotedFields fields) ++ "\x7d"

def quotedItems : List Json → List String
  | [] => []
  | item :: rest => quoted item :: quotedItems rest

def quotedFields : List (String × Json) → List String
  | [] => []
  | (name, value) :: rest => (Text.quoted name ++ ": " ++ quoted value) :: quotedFields rest

end

/-- The value as messages show it: a text stands as it is, all else is quoted. -/
def shown : Json → String
  | .str s => s
  | value => quoted value

end Json
end RoleMining
