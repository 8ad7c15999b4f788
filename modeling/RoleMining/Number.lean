import RoleMining.Binary64.Decimal
import RoleMining.Text.Numeral

/-!
# Numbers of a configuration

A threshold is an unbounded integer or a double-precision number. The two are compared by their
exact values, and shown differently: `5` and `5.0`.
-/
namespace RoleMining

inductive Number where
  | int (n : Int)
  | float (x : Binary64)
deriving DecidableEq

namespace Number

instance (n : Nat) : OfNat Number n := ⟨.int n⟩

instance : Inhabited Number := ⟨0⟩

instance : OfScientific Number where
  ofScientific digits isNegative shift := .float (OfScientific.ofScientific digits isNegative shift)

def toText : Number → String
  | .int n => Text.ofInt n
  | .float x => x.toText

/-- Strictly less, by exact value; never so with not-a-number. -/
def below : Number → Number → Bool
  | .int a, .int b => a < b
  | .float x, .float y => x.below y
  | .int _, .float .nan => false
  | .int _, .float (.infinite negative) => !negative
  | .int a, .float x => (a : Rat) < x.value
  | .float .nan, .int _ => false
  | .float (.infinite negative), .int _ => negative
  | .float x, .int b => x.value < (b : Rat)

/-- Equal by exact value; never so with not-a-number. -/
def same : Number → Number → Bool
  | .int a, .int b => a == b
  | .float x, .float y => x.same y
  | .int a, .float x => x.isFinite && x.value == (a : Rat)
  | .float x, .int b => x.isFinite && x.value == (b : Rat)

def atMost (a b : Number) : Bool := below a b || same a b

def isNaN : Number → Bool
  | .float .nan => true
  | _ => false

/-- An integer is a number of its own; a sum with a double-precision term is one too. -/
def add : Number → Number → Number
  | .int a, .int b => .int (a + b)
  | .int a, .float y => .float (Binary64.ofInt a + y)
  | .float x, .int b => .float (x + Binary64.ofInt b)
  | .float x, .float y => .float (x + y)

instance : Add Number := ⟨add⟩

end Number
end RoleMining
