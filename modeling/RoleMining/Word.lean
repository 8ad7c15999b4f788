/-!
# Machine words

Weights that are added up or read from a table are held in words of 64 bits as long as they fit.
-/
namespace RoleMining.Word

/-- The number of words, two to the power of 64. -/
def count : Nat := 18446744073709551616

/-- The first integer beyond the signed words, two to the power of 63. -/
def signedEnd : Int := 9223372036854775808

/-- The first integer beyond the unsigned words. -/
def unsignedEnd : Int := count

/-- The least signed word. -/
def least : Int := -signedEnd

def isSigned (n : Int) : Bool := least ≤ n && n < signedEnd

/-- The signed word with the last 64 bits of an integer. -/
def signed (n : Int) : Int := Int.bmod n count

/-- The unsigned word with the last 64 bits of an integer. -/
def unsigned (n : Int) : Int := n % unsignedEnd

end RoleMining.Word
