import RoleMining.Json.Basic

/-!
# Writing JSON

The written text is plain ASCII. A character outside the printable ASCII range is written by its
UTF-16 code units. The `Layout` decides what separates the items: line breaks with an indentation
of two blanks a level, or one blank.
-/
namespace RoleMining.Json

/-- One UTF-16 code unit by its number. -/
def unitEscape (unit : Nat) : List Char :=
  '\\' :: 'u' :: (Text.hexadecimal 4 unit).toList

def escapeChar (c : Char) : List Char :=
  if c == '"' then ['\\', '"']
  else if c == '\\' then ['\\', '\\']
  else if c == '\n' then ['\\', 'n']
  else if c == '\r' then ['\\', 'r']
  else if c == '\t' then ['\\', 't']
  else if c == '\x0c' then ['\\', 'f']
  else if c == '\x08' then ['\\', 'b']
  else if 0x20 ≤ c.toNat && c.toNat ≤ 0x7e then [c]
  else if c.toNat < 0x10000 then unitEscape c.toNat
  else
    let offset := c.toNat - 0x10000
    unitEscape (0xd800 + offset / 0x400) ++ unitEscape (0xdc00 + offset % 0x400)

def writeString (s : String) : List Char :=
  '"' :: (s.toList.flatMap escapeChar ++ ['"'])

/-- The three values without digits have names of their own. -/
def writeFloat : Binary64 → List Char
  | .nan => "NaN".toList
  | .infinite negative => if negative then "-Infinity".toList else "Infinity".toList
  | x => x.toText.toList

inductive Layout where
  | indented
  | compact
deriving DecidableEq, Repr

namespace Layout

def newline : Layout → Nat → List Char
  | .indented, depth => '\n' :: List.replicate (2 * depth) ' '
  | .compact, _ => []

def comma : Layout → Nat → List Char
  | .indented, depth => ',' :: newline .indented depth
  | .compact, _ => [',', ' ']

end Layout

mutual

/-- The text of a value that stands at a depth. -/
def write (layout : Layout) (depth : Nat) : Json → List Char
  | .null => "null".toList
  | .bool b => if b then "true".toList else "false".toList
  | .int n => Text.decimal n
  | .float x => writeFloat x
  | .str s => writeString s
  | .list [] => ['[', ']']
  | .list (item :: rest) =>
    '[' :: (layout.newline (depth + 1) ++ write layout (depth + 1) item ++
      writeItems layout (depth + 1) rest ++ layout.newline depth ++ [']'])
  | .object [] => ['\x7b', '\x7d']
  | .object ((name, value) :: rest) =>
    '\x7b' :: (layout.newline (depth + 1) ++ writeString name ++ ':' :: ' ' ::
      write layout (depth + 1) value ++ writeFields layout (depth + 1) rest ++
      layout.newline depth ++ ['\x7d'])

def writeItems (layout : Layout) (depth : Nat) : List Json → List Char
  | [] => []
  | item :: rest => layout.comma depth ++ write layout depth item ++ writeItems layout depth rest

def writeFields (layout : Layout) (depth : Nat) : List (String × Json) → List Char
  | [] => []
  | (name, value) :: rest =>
    layout.comma depth ++ writeString name ++ ':' :: ' ' :: write layout depth value ++
      writeFields layout depth rest

end

def render (layout : Layout) (value : Json) : String :=
  String.ofList (write layout 0 value)

/-- No integer in the value has more digits than a numeral may have. -/
def isWritable : Json → Bool :=
  everywhere fun
    | .int n => (Nat.toDigits 10 n.natAbs).length ≤ Text.maxNumeralDigits
    | _ => true

/-- The text of a value that can be written. -/
def render? (layout : Layout) (value : Json) : Option String :=
  if value.isWritable then some (value.render layout) else none

end RoleMining.Json
