import RoleMining.Binary64.Decimal
import RoleMining.Population.Table
import RoleMining.Text.Numeral
import RoleMining.Word

/-!
# Numbers and truth values in cells

A column whose cells all spell integers is one of integers, and so on for numbers and truth values.
A decimal number is read from its first seventeen digits and scaled by one power of ten, each step
in double precision.
-/
namespace RoleMining.Cell

def isSpace (c : Char) : Bool := c == ' ' || ('\t' ≤ c && c ≤ '\r')

def isDigit (c : Char) : Bool := '0' ≤ c && c ≤ '9'

def digitOf (c : Char) : Nat := c.toNat - 48

/-- Whether a sign is a minus, and the text behind it. -/
def takeSign : List Char → Bool × List Char
  | '-' :: rest => (true, rest)
  | '+' :: rest => (false, rest)
  | rest => (false, rest)

def power (k : Nat) : Binary64 := .ofDecimal false 1 k

/-- The digits of a number as it is read. -/
structure Significand where
  value : Binary64 := 0
  /-- Digits taken into the value, seventeen at most. -/
  taken : Nat := 0
  /-- Digits of the whole part that were left out. -/
  dropped : Nat := 0

def maxTaken : Nat := 17

def Significand.push (s : Significand) (c : Char) : Significand :=
  if s.taken < maxTaken then
    { s with value := s.value * 10 + .ofInt (digitOf c), taken := s.taken + 1 }
  else { s with dropped := s.dropped + 1 }

/-- The number scaled by a power of ten. -/
def scale (x : Binary64) (exponent : Int) : Binary64 :=
  if 308 < exponent then (if x.value = 0 then 0 else .infinite x.isNegative)
  else if 0 < exponent then x * power exponent.toNat
  else if exponent < -616 then .zero x.isNegative
  else if exponent < -308 then x / power (-308 - exponent).toNat / power 308
  else x / power (-exponent).toNat

/-- An exponent mark with its digits; without digits the mark is not taken. -/
def takeExponent (cs : List Char) : Int × List Char × Bool :=
  match cs with
  | mark :: rest =>
    if mark == 'e' || mark == 'E' then
      let (negative, body) := takeSign rest
      let digits := (body.take maxTaken).takeWhile isDigit
      let size : Int := Text.ofDigits (digits.map digitOf)
      if digits.isEmpty then (0, cs, true)
      else ((if negative then -size else size), body.drop digits.length, true)
    else (0, cs, false)
  | [] => (0, cs, false)

/-- What a decimal numeral spells: its value, and whether it is written as an integer. -/
structure Numeral where
  value : Binary64
  isWhole : Bool

def infinityWords : List String := ["inf", "+inf", "infinity", "+infinity"]

/-- The infinity that a word names. -/
def infinity? (cell : String) : Option Binary64 :=
  let word := cell.map Char.toLower
  if infinityWords.contains word then some (.infinite false)
  else if word == "-inf" || word == "-infinity" then some (.infinite true)
  else none

/-- A numeral between spaces; one that is too large is none. -/
def numeral? (cell : String) : Option Numeral :=
  let (negative, body) := takeSign (cell.toList.dropWhile isSpace)
  let whole := (body.takeWhile isDigit).foldl Significand.push {}
  let rest := body.dropWhile isDigit
  let (fraction, rest, hasPoint) := match rest with
    | '.' :: rest => (rest.takeWhile isDigit, rest.dropWhile isDigit, true)
    | rest => ([], rest, false)
  let places := min fraction.length (maxTaken - whole.taken)
  let all := (fraction.take places).foldl Significand.push whole
  if all.taken = 0 then none
  else
    let signed := if negative then -all.value else all.value
    let (exponent, rest, hasMark) := takeExponent rest
    let x := scale signed ((whole.dropped : Int) - places + exponent)
    if !x.isFinite || !(rest.dropWhile isSpace).isEmpty then none
    else some { value := x, isWhole := !hasPoint && !hasMark }

/-- The double-precision number that a cell spells. -/
def double? (cell : String) : Option Binary64 :=
  match numeral? cell with
  | some n => some n.value
  | none => infinity? cell

/-- How a cell reads as a machine integer. -/
inductive Word where
  | value (n : Int)
  | tooLarge
  | notInteger
deriving DecidableEq, Repr

/-- Read digits up to a limit; passing it is noticed before anything behind the digits. -/
def wordOf (limit : Nat) (body : List Char) (signed : Nat → Int) : Word :=
  let digits := body.takeWhile isDigit
  let size := Text.ofDigits (digits.map digitOf)
  if digits.isEmpty then .notInteger
  else if limit < size then .tooLarge
  else if (body.dropWhile isDigit).all isSpace then .value (signed size)
  else .notInteger

def signedWord (cell : String) : Word :=
  let (negative, body) := takeSign (cell.toList.dropWhile isSpace)
  if negative then wordOf Word.signedEnd.toNat body fun n => -(n : Int)
  else wordOf (Word.signedEnd.toNat - 1) body fun n => (n : Int)

def unsignedWord (cell : String) : Word :=
  let (_, body) := takeSign (cell.toList.dropWhile isSpace)
  wordOf (Word.count - 1) body fun n => (n : Int)

def isNegativeText (cell : String) : Bool :=
  (takeSign (cell.toList.dropWhile isSpace)).1

def truth? (cell : String) : Option Bool :=
  let word := cell.map Char.toLower
  if word == "true" then some true
  else if word == "false" then some false
  else none

/-- The first integer of a column that is not a machine word decides: `none` when there is none. -/
def firstMisfit (read : String → Word) : List String → Option Word
  | [] => none
  | cell :: rest =>
    match read cell with
    | .value _ => firstMisfit read rest
    | misfit => some misfit

/-- What an identifier shows for a missing cell. -/
def missingText : String := "nan"

def shownOr (f : String → String) (cell : String) : String :=
  if Table.isMissing cell then missingText else f cell

/-- A column of texts. -/
def texts (cells : List String) : List String := cells.map (shownOr id)

def wordText (read : String → Word) (cell : String) : String :=
  match read cell with
  | .value n => Text.ofInt n
  | _ => cell

/-- An integer beside missing cells becomes a double-precision number. -/
def wordDoubleText (cell : String) : String :=
  match signedWord cell with
  | .value n => (Binary64.ofInt n).toText
  | _ => cell

/-- The column as numbers, truth values or texts, whichever all its cells are. -/
def inferWider (cells : List String) : List String :=
  let given := cells.filterMap Table.present?
  if given.all fun cell => (double? cell).isSome then
    cells.map (shownOr fun cell => ((double? cell).map Binary64.toText).getD cell)
  else if given.all fun cell => (truth? cell).isSome then
    cells.map (shownOr fun cell => if truth? cell = some true then "True" else "False")
  else texts cells

/-- A column with an integer beyond signed words: unsigned integers, when nothing is missing and
nothing negative. -/
def inferUnsigned (cells : List String) : List String :=
  let given := cells.filterMap Table.present?
  let unsigned := given.filter fun cell => !isNegativeText cell
  match firstMisfit unsignedWord unsigned with
  | some .tooLarge => texts cells
  | some _ => inferWider cells
  | none =>
    let hasNegative := given.any isNegativeText
    let hasLarge := unsigned.any fun cell =>
      match unsignedWord cell with
      | .value n => decide (Word.signedEnd ≤ n)
      | _ => false
    if hasLarge && (hasNegative || given.length < cells.length) then cells
    else if hasNegative then texts cells
    else cells.map (wordText unsignedWord)

/-- The texts of a column once its cells are read as integers, numbers or truth values, whichever
all of them are; missing cells are shown as such. -/
def infer (cells : List String) : List String :=
  let given := cells.filterMap Table.present?
  match firstMisfit signedWord given with
  | some .tooLarge => inferUnsigned cells
  | some _ => inferWider cells
  | none =>
    if given.length < cells.length then cells.map (shownOr wordDoubleText)
    else cells.map (wordText signedWord)

end RoleMining.Cell
