/-!
# Binary floating point with 53-bit significands

Frequencies, similarities and densities are double-precision numbers, and answers show their last
bit. A number here is an exact value: every operation takes the exact rational result and rounds it
once, to the nearest number, a tie going to the even significand.
-/
namespace RoleMining

/-- The powers of two. -/
def twoPower (k : Nat) : Nat := Nat.pow 2 k

/-- The powers of ten. -/
def tenPower (k : Nat) : Nat := Nat.pow 10 k

/-- A significand and an exponent in their one normal form: either the significand has its full
53 bits, or the exponent is the smallest there is. -/
def IsNormalForm (significand : Nat) (exponent : Int) : Prop :=
  significand < twoPower 53 ∧ -1074 ≤ exponent ∧ exponent ≤ 971 ∧
    (twoPower 52 ≤ significand ∨ exponent = -1074)

instance (significand : Nat) (exponent : Int) : Decidable (IsNormalForm significand exponent) :=
  inferInstanceAs (Decidable (_ ∧ _ ∧ _ ∧ _))

inductive Binary64 where
  | nan
  | infinite (negative : Bool)
  | finite (negative : Bool) (significand : Nat) (exponent : Int)
      (normal : IsNormalForm significand exponent)
deriving DecidableEq

/-- The integer nearest to a quotient; a tie goes to the even one. -/
def nearestEven (n d : Nat) : Nat :=
  let whole := n / d
  let rest := n % d
  if 2 * rest < d then whole
  else if d < 2 * rest then whole + 1
  else if whole % 2 = 0 then whole else whole + 1

/-- The integer nearest to a rational; a tie goes to the even one. -/
def roundEven (q : Rat) : Int :=
  let size : Int := nearestEven q.num.natAbs q.den
  if q.num < 0 then -size else size

namespace Binary64

/-- Two to an exponent as a rational. -/
def power (exponent : Int) : Rat :=
  if 0 ≤ exponent then (twoPower exponent.toNat : Nat)
  else (1 : Rat) / (twoPower (-exponent).toNat : Nat)

def zero (negative : Bool) : Binary64 :=
  .finite negative 0 (-1074) (by decide)

/-- The exact value; not-a-number and the infinities stand at zero. -/
def value : Binary64 → Rat
  | .finite negative significand exponent _ =>
    let size := (significand : Rat) * power exponent
    if negative then -size else size
  | _ => 0

def isNaN : Binary64 → Bool
  | .nan => true
  | _ => false

def isFinite : Binary64 → Bool
  | .finite .. => true
  | _ => false

def isNegative : Binary64 → Bool
  | .nan => false
  | .infinite negative => negative
  | .finite negative .. => negative

/-- The exponent at which the quotient `n / d` has a 53-bit significand, or the smallest one. -/
def exponentFor (n d : Nat) : Int :=
  let estimate : Int := (n.log2 : Int) - d.log2
  let reached :=
    if 0 ≤ estimate then d * twoPower estimate.toNat ≤ n
    else d ≤ n * twoPower (-estimate).toNat
  max (-1074) (if reached then estimate - 52 else estimate - 53)

/-- The significand of `n / d` at an exponent, rounded. -/
def significandAt (n d : Nat) (exponent : Int) : Nat :=
  if 0 ≤ exponent then nearestEven n (d * twoPower exponent.toNat)
  else nearestEven (n * twoPower (-exponent).toNat) d

/-- A rounded significand as a number; past the largest exponent it is infinite. -/
def ofRounded (negative : Bool) (significand : Nat) (exponent : Int) : Binary64 :=
  let (significand, exponent) :=
    if significand = twoPower 53 then (twoPower 52, exponent + 1) else (significand, exponent)
  if normal : IsNormalForm significand exponent then
    .finite negative significand exponent normal
  else .infinite negative

/-- The number nearest to a rational; an exact zero gets the given sign. -/
def ofRatSigned (q : Rat) (negativeZero : Bool) : Binary64 :=
  if q.num = 0 then zero negativeZero
  else
    let n := q.num.natAbs
    let exponent := exponentFor n q.den
    ofRounded (q.num < 0) (significandAt n q.den exponent) exponent

def ofRat (q : Rat) : Binary64 := ofRatSigned q false

def ofInt (n : Int) : Binary64 := ofRat n

instance (n : Nat) : OfNat Binary64 n := ⟨ofInt n⟩

instance : Inhabited Binary64 := ⟨0⟩

/-- Decimal literals are read exactly and rounded once. -/
instance : OfScientific Binary64 where
  ofScientific digits isNegative shift :=
    ofRat (if isNegative then (digits : Rat) / (tenPower shift : Nat)
      else digits * (tenPower shift : Nat))

/-- The number nearest to an integer, unless the integer is too large for any. -/
def ofInt? (n : Int) : Option Binary64 :=
  let x := ofInt n
  if x.isFinite then some x else none

/-- The quotient of two integers, rounded once; none when it is too large. -/
def ratio? (n d : Int) : Option Binary64 :=
  let x := ofRat ((n : Rat) / d)
  if x.isFinite then some x else none

def neg : Binary64 → Binary64
  | .nan => .nan
  | .infinite negative => .infinite !negative
  | .finite negative significand exponent normal => .finite (!negative) significand exponent normal

/-- A sum that is exactly zero is negative only when both terms are. -/
def add : Binary64 → Binary64 → Binary64
  | .nan, _ => .nan
  | _, .nan => .nan
  | .infinite a, .infinite b => if a = b then .infinite a else .nan
  | .infinite a, _ => .infinite a
  | _, .infinite b => .infinite b
  | x, y => ofRatSigned (x.value + y.value) (x.isNegative && y.isNegative)

def sub (x y : Binary64) : Binary64 := add x (neg y)

def mul : Binary64 → Binary64 → Binary64
  | .nan, _ => .nan
  | _, .nan => .nan
  | .infinite a, y => if y.value = 0 && y.isFinite then .nan else .infinite (a != y.isNegative)
  | x, .infinite b => if x.value = 0 then .nan else .infinite (x.isNegative != b)
  | x, y =>
    let negative := x.isNegative != y.isNegative
    let q := x.value * y.value
    if q = 0 then zero negative else ofRat q

def div : Binary64 → Binary64 → Binary64
  | .nan, _ => .nan
  | _, .nan => .nan
  | .infinite _, .infinite _ => .nan
  | .infinite a, y => .infinite (a != y.isNegative)
  | x, .infinite b => zero (x.isNegative != b)
  | x, y =>
    let negative := x.isNegative != y.isNegative
    if y.value = 0 then (if x.value = 0 then .nan else .infinite negative)
    else if x.value = 0 then zero negative
    else ofRat (x.value / y.value)

instance : Neg Binary64 := ⟨neg⟩
instance : Add Binary64 := ⟨add⟩
instance : Sub Binary64 := ⟨sub⟩
instance : Mul Binary64 := ⟨mul⟩
instance : Div Binary64 := ⟨div⟩

/-- A number between the infinities as a rational with the infinities at the two ends; the order
on numbers is the order of these keys. -/
def below : Binary64 → Binary64 → Bool
  | .nan, _ => false
  | _, .nan => false
  | .infinite a, .infinite b => a && !b
  | .infinite a, _ => a
  | _, .infinite b => !b
  | x, y => x.value < y.value

/-- Numerical equality: both zeros are equal, and not-a-number equals nothing. -/
def same : Binary64 → Binary64 → Bool
  | .nan, _ => false
  | _, .nan => false
  | .infinite a, .infinite b => a == b
  | .infinite _, _ => false
  | _, .infinite _ => false
  | x, y => x.value == y.value

def atMost (x y : Binary64) : Bool := below x y || same x y

/-- The number without its fraction, for a finite number. -/
def truncate (x : Binary64) : Int :=
  let q := x.value
  if q.num < 0 then -(q.num.natAbs / q.den : Nat) else (q.num.natAbs / q.den : Nat)

/-- The number nearest to the value rounded to so many decimal places. -/
def roundPlaces (places : Nat) : Binary64 → Binary64
  | .finite negative significand exponent normal =>
    let q := (finite negative significand exponent normal).value
    let scale := tenPower places
    ofRatSigned ((roundEven (q * scale) : Rat) / scale) negative
  | x => x

end Binary64
end RoleMining
