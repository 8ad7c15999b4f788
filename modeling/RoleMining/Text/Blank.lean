/-!
# Blank characters

Identifiers, column names and setting words are stripped of blanks at both ends. The blanks are
the characters that Unicode calls white space, with the four information separators.
-/
namespace RoleMining.Text

/-- The ranges of blank characters, in ascending order. -/
def blankRanges : List (Nat × Nat) :=
  [(0x9, 0xd), (0x1c, 0x20), (0x85, 0x85), (0xa0, 0xa0), (0x1680, 0x1680), (0x2000, 0x200a),
   (0x2028, 0x2029), (0x202f, 0x202f), (0x205f, 0x205f), (0x3000, 0x3000)]

def isBlank (c : Char) : Bool :=
  blankRanges.any fun (first, last) => first ≤ c.toNat && c.toNat ≤ last

/-- The list without its first and last elements of a class. -/
def trimList {α : Type} (p : α → Bool) (xs : List α) : List α :=
  ((xs.dropWhile p).reverse.dropWhile p).reverse

/-- Text without the blanks at its two ends. -/
def strip (s : String) : String :=
  String.ofList (trimList isBlank s.toList)

end RoleMining.Text
