import RoleMining.Ledger

/-!
# Request targets

A target is a path, perhaps with a query behind a question mark. Both may hold percent signs with
two hexadecimal digits for single bytes of their text.
-/
namespace RoleMining

structure Target where
  path : String
  /-- Names and values of the query, in order. -/
  query : List (String × String)

namespace Target

def hexDigit? (b : UInt8) : Option UInt8 :=
  if 0x30 ≤ b && b ≤ 0x39 then some (b - 0x30)
  else if 0x41 ≤ b && b ≤ 0x46 then some (b - 0x37)
  else if 0x61 ≤ b && b ≤ 0x66 then some (b - 0x57)
  else none

/-- A percent sign without two digits behind it stands for itself. -/
def decodeBytes : List UInt8 → List UInt8
  | 0x25 :: high :: low :: rest =>
    match hexDigit? high, hexDigit? low with
    | some h, some l => (16 * h + l) :: decodeBytes rest
    | _, _ => 0x25 :: decodeBytes (high :: low :: rest)
  | b :: rest => b :: decodeBytes rest
  | [] => []

/-- Bytes that are no text become the replacement character. -/
def decode (cs : List Char) : String :=
  (String.fromUTF8? ⟨(decodeBytes (String.ofList cs).toUTF8.toList).toArray⟩).getD "\ufffd"

/-- The text up to the first separator, and the text behind it when there is one. -/
def cut (separator : Char) (cs : List Char) : List Char × Option (List Char) :=
  match cs.dropWhile (· != separator) with
  | _ :: rest => (cs.takeWhile (· != separator), some rest)
  | [] => (cs, none)

/-- A host in front of the path does not belong to it. -/
def dropHost : List Char → List Char
  | '/' :: '/' :: rest => rest.dropWhile (· != '/')
  | cs => cs

/-- A plus sign in a query is a space. -/
def queryText (cs : List Char) : String := decode (cs.map fun c => if c == '+' then ' ' else c)

def splitOn (separator : Char) : List Char → List (List Char)
  | [] => [[]]
  | c :: rest =>
    match splitOn separator rest with
    | head :: tail => if c == separator then [] :: head :: tail else (c :: head) :: tail
    | [] => [[]]

def queryOf (cs : List Char) : List (String × String) :=
  ((splitOn '&' cs).filter fun part => !part.isEmpty).map fun part =>
    let (name, value) := cut '=' part
    (queryText name, queryText (value.getD []))

/-- The target that a text spells; a fragment does not count. -/
def ofText (text : String) : Target :=
  let (path, query) := cut '?' (cut '#' text.toList).1
  { path := decode (dropHost path), query := queryOf (query.getD []) }

/-- The path with exactly one slash in front. -/
def rooted (path : String) : String :=
  if path.isEmpty then "" else String.ofList ('/' :: path.toList.dropWhile (· == '/'))

/-- Pairs of slashes made one. -/
def mergeSlashes : List Char → List Char
  | '/' :: '/' :: rest => '/' :: mergeSlashes rest
  | c :: rest => c :: mergeSlashes rest
  | [] => []

end Target
end RoleMining
