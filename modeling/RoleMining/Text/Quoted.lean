import RoleMining.Text.Printable

/-!
# Quoted text

Messages quote a text in single quotes, or in double quotes when it holds a single quote and no
double quote. A backslash, the quote itself, and characters that are not printable are escaped.
-/
namespace RoleMining.Text

/-- Lower-case hexadecimal digits, filled up with zeros to a width. -/
def hexadecimal (width n : Nat) : String :=
  let digits := Nat.toDigits 16 n
  String.ofList (List.replicate (width - digits.length) '0' ++ digits)

/-- A character by its number, in the shortest of the three escaped forms. -/
def escapeByNumber (c : Char) : String :=
  if c.toNat < 0x100 then "\\x" ++ hexadecimal 2 c.toNat
  else if c.toNat < 0x10000 then "\\u" ++ hexadecimal 4 c.toNat
  else "\\U" ++ hexadecimal 8 c.toNat

def quoteFor (s : String) : Char :=
  if s.contains '\'' && !s.contains '"' then '"' else '\''

def quotedChar (quote c : Char) : String :=
  if c == quote || c == '\\' then "\\" ++ c.toString
  else if c == '\n' then "\\n"
  else if c == '\r' then "\\r"
  else if c == '\t' then "\\t"
  else if isPrintable c then c.toString
  else escapeByNumber c

/-- The text as a message quotes it. -/
def quoted (s : String) : String :=
  let quote := quoteFor s
  quote.toString ++ String.join (s.toList.map (quotedChar quote)) ++ quote.toString

end RoleMining.Text
