import RoleMining.Json.Basic
import RoleMining.Ledger

/-!
# Reading JSON

The reader takes one value with nothing but blanks around it. Besides the plain format it knows the
three names `NaN`, `Infinity` and `-Infinity`. Of a key that is repeated in one object the last
value counts, at the place of the first.
-/
namespace RoleMining.Json

def isSpace (c : Char) : Bool := c == ' ' || c == '\t' || c == '\n' || c == '\r'

def skipSpace (cs : List Char) : List Char := cs.dropWhile isSpace

/-- The rest of the text behind a word that it begins with. -/
def after? : List Char → List Char → Option (List Char)
  | [], cs => some cs
  | w :: word, c :: cs => if w == c then after? word cs else none
  | _ :: _, [] => none

def hexValue? (c : Char) : Option Nat :=
  if '0' ≤ c ∧ c ≤ '9' then some (c.toNat - 48)
  else if 'a' ≤ c ∧ c ≤ 'f' then some (c.toNat - 87)
  else if 'A' ≤ c ∧ c ≤ 'F' then some (c.toNat - 55)
  else none

/-- Four hexadecimal digits: one UTF-16 code unit. -/
def readUnit? : List Char → Option (Nat × List Char)
  | a :: b :: c :: d :: rest => do
    let a ← hexValue? a
    let b ← hexValue? b
    let c ← hexValue? c
    let d ← hexValue? d
    some (((a * 16 + b) * 16 + c) * 16 + d, rest)
  | _ => none

/-- The low half that completes a high surrogate. -/
def readLowHalf? : List Char → Option (Nat × List Char)
  | '\\' :: 'u' :: rest => do
    let (unit, rest) ← readUnit? rest
    if 0xdc00 ≤ unit ∧ unit ≤ 0xdfff then some (unit, rest) else none
  | _ => none

/-- The character behind a backslash. A surrogate that stands alone is no character and is read
as the replacement character. -/
def readEscape? : List Char → Option (Char × List Char)
  | '"' :: rest => some ('"', rest)
  | '\\' :: rest => some ('\\', rest)
  | '/' :: rest => some ('/', rest)
  | 'b' :: rest => some ('\x08', rest)
  | 'f' :: rest => some ('\x0c', rest)
  | 'n' :: rest => some ('\n', rest)
  | 'r' :: rest => some ('\r', rest)
  | 't' :: rest => some ('\t', rest)
  | 'u' :: rest => do
    let (unit, rest) ← readUnit? rest
    if 0xd800 ≤ unit ∧ unit ≤ 0xdbff then
      match readLowHalf? rest with
      | some (low, rest) =>
        some (Char.ofNat (0x10000 + (unit - 0xd800) * 0x400 + (low - 0xdc00)), rest)
      | none => some ('\ufffd', rest)
    else if 0xdc00 ≤ unit ∧ unit ≤ 0xdfff then some ('\ufffd', rest)
    else some (Char.ofNat unit, rest)
  | _ => none

/-- The characters up to the closing quote, in reverse before the ones read so far. -/
def readString? : Nat → List Char → List Char → Option (String × List Char)
  | 0, _, _ => none
  | _ + 1, _, [] => none
  | fuel + 1, taken, c :: rest =>
    if c == '"' then some (String.ofList taken.reverse, rest)
    else if c == '\\' then do
      let (c, rest) ← readEscape? rest
      readString? fuel (c :: taken) rest
    else if c.toNat < 0x20 then none
    else readString? fuel (c :: taken) rest

def isDigit (c : Char) : Bool := '0' ≤ c && c ≤ '9'

def digitsValue (cs : List Char) : Nat :=
  cs.foldl (fun value c => 10 * value + (c.toNat - 48)) 0

/-- The digits of the fraction, when a point with a digit behind it follows. -/
def readFraction : List Char → List Char × List Char
  | '.' :: rest =>
    let digits := rest.takeWhile isDigit
    if digits.isEmpty then ([], '.' :: rest) else (digits, rest.dropWhile isDigit)
  | rest => ([], rest)

/-- The exponent, when its mark has a digit behind it. -/
def readExponent (cs : List Char) : Option Int × List Char :=
  match cs with
  | mark :: rest =>
    if mark == 'e' || mark == 'E' then
      let (negative, body) :=
        match rest with
        | '-' :: body => (true, body)
        | '+' :: body => (false, body)
        | body => (false, body)
      let digits := body.takeWhile isDigit
      if digits.isEmpty then (none, cs)
      else
        let size : Int := digitsValue digits
        (some (if negative then -size else size), body.dropWhile isDigit)
    else (none, cs)
  | [] => (none, cs)

/-- A whole part has no leading zeros. -/
def readWhole? : List Char → Option (List Char × List Char)
  | '0' :: rest => some (['0'], rest)
  | cs =>
    let digits := cs.takeWhile isDigit
    if digits.isEmpty then none else some (digits, cs.dropWhile isDigit)

/-- A number is a float exactly when it has a fraction or an exponent. -/
def readMagnitude? (negative : Bool) (cs : List Char) : Option (Json × List Char) := do
  let (whole, rest) ← readWhole? cs
  let (fraction, rest) := readFraction rest
  let (exponent, rest) := readExponent rest
  if fraction.isEmpty && exponent.isNone then
    if Text.maxNumeralDigits < whole.length then none
    else
      let size : Int := digitsValue whole
      some (.int (if negative then -size else size), rest)
  else
    let shift := exponent.getD 0 - fraction.length
    some (.float (Binary64.ofDecimal negative (digitsValue (whole ++ fraction)) shift), rest)

def readNumber? : List Char → Option (Json × List Char)
  | '-' :: rest =>
    match after? "Infinity".toList rest with
    | some rest => some (.float (.infinite true), rest)
    | none => readMagnitude? true rest
  | cs => readMagnitude? false cs

/-- The values that are written as a word. -/
def readWord? (cs : List Char) : Option (Json × List Char) :=
  ((after? "null".toList cs).map fun rest => (.null, rest)).orElse fun _ =>
  ((after? "true".toList cs).map fun rest => (.bool true, rest)).orElse fun _ =>
  ((after? "false".toList cs).map fun rest => (.bool false, rest)).orElse fun _ =>
  ((after? "NaN".toList cs).map fun rest => (.float .nan, rest)).orElse fun _ =>
  (after? "Infinity".toList cs).map fun rest => (.float (.infinite false), rest)

mutual

/-- A value at the head of the text. -/
def readValue? : Nat → List Char → Option (Json × List Char)
  | 0, _ => none
  | _ + 1, [] => none
  | fuel + 1, c :: rest =>
    if c == '"' then do
      let (s, rest) ← readString? (rest.length + 1) [] rest
      some (.str s, rest)
    else if c == '[' then
      match skipSpace rest with
      | ']' :: rest => some (.list [], rest)
      | rest => do
        let (items, rest) ← readItems? fuel rest
        some (.list items, rest)
    else if c == '\x7b' then
      match skipSpace rest with
      | '\x7d' :: rest => some (.object [], rest)
      | rest => do
        let (fields, rest) ← readFields? fuel rest
        some (.object (Ledger.ofList fields).entries, rest)
    else (readWord? (c :: rest)).orElse fun _ => readNumber? (c :: rest)

/-- The items of a list that is not empty, up to its closing bracket. -/
def readItems? : Nat → List Char → Option (List Json × List Char)
  | 0, _ => none
  | fuel + 1, cs => do
    let (item, rest) ← readValue? fuel cs
    match skipSpace rest with
    | ']' :: rest => some ([item], rest)
    | ',' :: rest => do
      let (items, rest) ← readItems? fuel (skipSpace rest)
      some (item :: items, rest)
    | _ => none

/-- The fields of an object that is not empty, up to its closing brace. -/
def readFields? : Nat → List Char → Option (List (String × Json) × List Char)
  | 0, _ => none
  | fuel + 1, cs =>
    match cs with
    | '"' :: rest => do
      let (name, rest) ← readString? (rest.length + 1) [] rest
      match skipSpace rest with
      | ':' :: rest => do
        let (value, rest) ← readValue? fuel (skipSpace rest)
        match skipSpace rest with
        | '\x7d' :: rest => some ([(name, value)], rest)
        | ',' :: rest => do
          let (fields, rest) ← readFields? fuel (skipSpace rest)
          some ((name, value) :: fields, rest)
        | _ => none
      | _ => none
    | _ => none

end

/-- The value that a text spells. -/
def parse? (text : String) : Option Json := do
  let cs := text.toList
  let (value, rest) ← readValue? (cs.length + 1) (skipSpace cs)
  if (skipSpace rest).isEmpty then some value else none

end RoleMining.Json
