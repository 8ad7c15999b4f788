import RoleMining.Text.UpperCase

/-!
# Origin expressions

An allowed origin may be written as an expression that stands for many origins. It is read
character by character; `.` admits any character, `*`, `+` and `?` repeat what stands before them,
brackets list characters, parentheses and `|` divide alternatives, and `^` and `$` stand for the
two ends. A backslash takes the character behind it literally, except before the letters of the
classes of digits, blanks and word characters. Letter case never counts.
-/
namespace RoleMining

inductive Expression where
  | empty
  | one (admits : Char → Bool)
  | start
  | finish
  | both (first second : Expression)
  | either (first second : Expression)
  | many (repeated : Expression)

namespace Expression

/-- Repeat a step on every rest that it makes shorter; `fuel` bounds the rests' lengths. -/
def closure (step : List Char → List (List Char)) : Nat → List Char → List (List Char)
  | 0, cs => [cs]
  | fuel + 1, cs =>
    cs :: ((step cs).filter fun rest => rest.length < cs.length).flatMap (closure step fuel)

/-- What can be left of a text behind an expression; `length` is that of the whole text. -/
def rests (length : Nat) : Expression → List Char → List (List Char)
  | .empty, cs => [cs]
  | .one _, [] => []
  | .one admits, c :: rest => if admits c then [rest] else []
  | .start, cs => if cs.length = length then [cs] else []
  | .finish, cs => if cs.isEmpty then [cs] else []
  | .both first second, cs => ((rests length first cs).flatMap (rests length second)).eraseDups
  | .either first second, cs => rests length first cs ++ rests length second cs
  | .many repeated, cs => (closure (rests length repeated) cs.length cs).eraseDups

/-- Whether a text begins as the expression says. -/
def beginsWith (e : Expression) (text : String) : Bool :=
  let cs := (Text.lowerLatin text).toList
  !(rests cs.length e cs).isEmpty

/-! ## Reading -/

def isWord (c : Char) : Bool := c.isAlphanum || c == '_'

def literal (c : Char) : Char → Bool := fun d => c.toLower == d

/-- The characters that a backslash and a character stand for. -/
def escaped (c : Char) : Char → Bool :=
  match c with
  | 'd' => Char.isDigit
  | 'D' => fun d => !d.isDigit
  | 'w' => isWord
  | 'W' => fun d => !isWord d
  | 's' => Char.isWhitespace
  | 'S' => fun d => !d.isWhitespace
  | _ => literal c

/-- The characters listed up to a closing bracket, which may also come first. -/
def readListed : Nat → Bool → List Char → Option ((Char → Bool) × List Char)
  | 0, _, _ => none
  | _ + 1, _, [] => none
  | fuel + 1, isFirst, c :: rest => do
    if c == ']' && !isFirst then return (fun _ => false, rest)
    let (admits, rest) ← match c, rest with
      | '\\', e :: rest => some (escaped e, rest)
      | '\\', [] => none
      | low, '-' :: high :: rest =>
        if high == ']' then some (literal low, '-' :: high :: rest)
        else if high < low then none
        else some ((fun d => (low ≤ d && d ≤ high) || (low ≤ d.toUpper && d.toUpper ≤ high)), rest)
      | c, rest => some (literal c, rest)
    let (others, rest) ← readListed fuel false rest
    return (fun d => admits d || others d, rest)

/-- The repetition marks behind an expression: one, perhaps with a second one for its manner. -/
def readRepeats (e : Expression) : List Char → Option (Expression × List Char)
  | mark :: rest =>
    let repeated := match mark with
      | '*' => some (Expression.many e)
      | '+' => some (.both e (.many e))
      | '?' => some (.either .empty e)
      | _ => none
    match repeated, rest with
    | none, _ => some (e, mark :: rest)
    | some _, '*' :: _ => none
    | some made, '?' :: rest => some (made, rest)
    | some made, '+' :: rest => some (made, rest)
    | some made, rest => some (made, rest)
  | [] => some (e, [])

mutual

/-- Alternatives up to a closing parenthesis or the end. -/
def readAlternatives : Nat → List Char → Option (Expression × List Char)
  | 0, _ => none
  | fuel + 1, cs => do
    let (first, rest) ← readSequence fuel cs
    match rest with
    | '|' :: rest =>
      let (second, rest) ← readAlternatives fuel rest
      return (.either first second, rest)
    | rest => return (first, rest)

def readSequence : Nat → List Char → Option (Expression × List Char)
  | 0, _ => none
  | fuel + 1, cs =>
    match cs with
    | [] => some (.empty, [])
    | ')' :: _ => some (.empty, cs)
    | '|' :: _ => some (.empty, cs)
    | cs => do
      let (unit, rest) ← readUnit fuel cs
      let (unit, rest) ← readRepeats unit rest
      let (others, rest) ← readSequence fuel rest
      return (.both unit others, rest)

/-- The least part of an expression that can be repeated. -/
def readUnit : Nat → List Char → Option (Expression × List Char)
  | 0, _ => none
  | fuel + 1, cs =>
    match cs with
    | '.' :: rest => some (.one fun c => c != '\n', rest)
    | '^' :: rest => some (.start, rest)
    | '$' :: rest => some (.finish, rest)
    | '\\' :: c :: rest => some (.one (escaped c), rest)
    | '[' :: '^' :: rest => do
      let (admits, rest) ← readListed (rest.length + 1) true rest
      return (.one fun c => !admits c, rest)
    | '[' :: rest => do
      let (admits, rest) ← readListed (rest.length + 1) true rest
      return (.one admits, rest)
    | '(' :: '?' :: ':' :: rest => readGroup fuel rest
    | '(' :: rest => readGroup fuel rest
    | c :: rest => if "\\*+?".contains c then none else some (.one (literal c), rest)
    | [] => none

def readGroup : Nat → List Char → Option (Expression × List Char)
  | 0, _ => none
  | fuel + 1, cs => do
    let (e, rest) ← readAlternatives fuel cs
    match rest with
    | ')' :: rest => return (e, rest)
    | _ => none

end

/-- The expression that a text spells, unless it is malformed. -/
def parse? (text : String) : Option Expression :=
  match readAlternatives (4 * text.length + 4) text.toList with
  | some (e, []) => some e
  | _ => none

end Expression
end RoleMining
