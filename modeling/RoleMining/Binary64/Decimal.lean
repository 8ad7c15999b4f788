import RoleMining.Binary64.Basic

/-!
# Decimal numerals

A decimal numeral is read as the number nearest to its exact value, and a number is written with
the fewest digits that read back as it; of two such digit strings the nearer one is chosen.
-/
namespace RoleMining.Binary64

/-- A number with more than 310 places before the point is infinite, and one that begins more than
330 places behind it is zero. -/
def ofDecimal (negative : Bool) (digits : Nat) (exponent : Int) : Binary64 :=
  if digits = 0 then zero negative
  else
    let leading : Int := (Nat.toDigits 10 digits).length + exponent
    if 310 < leading then .infinite negative
    else if leading < -330 then zero negative
    else
      let size : Rat :=
        if 0 ≤ exponent then digits * (tenPower exponent.toNat : Nat)
        else (digits : Rat) / (tenPower (-exponent).toNat : Nat)
      ofRatSigned (if negative then -size else size) negative

/-- A power of ten as a rational. -/
def tenTo (exponent : Int) : Rat :=
  if 0 ≤ exponent then (tenPower exponent.toNat : Nat)
  else (1 : Rat) / (tenPower (-exponent).toNat : Nat)

/-- The exponent of the leading decimal digit of a positive rational. -/
def leadingPlace (q : Rat) : Int :=
  let estimate : Int :=
    ((Nat.toDigits 10 q.num.natAbs).length : Int) - (Nat.toDigits 10 q.den).length
  if tenTo estimate ≤ q then estimate else estimate - 1

/-- A digit string for a positive number `size`: the integer `digits` times ten to `place`. -/
structure Digits where
  digits : Nat
  place : Int
deriving DecidableEq, Repr

def Digits.value (d : Digits) : Rat := d.digits * tenTo d.place

/-- The neighbour of `q` on the grid of multiples of ten to `place` that reads back as `x`; the
nearer one when both do, and the even one on a tie. -/
def onGrid? (x : Binary64) (q : Rat) (place : Int) : Option Digits :=
  let steps := q / tenTo place
  let lower : Digits := ⟨steps.floor.toNat, place⟩
  let upper : Digits := ⟨steps.floor.toNat + 1, place⟩
  let lowerReads := ofRat lower.value == x
  let upperReads := ofRat upper.value == x
  if lowerReads && upperReads then
    let below := q - lower.value
    let above := upper.value - q
    if below < above then some lower
    else if above < below then some upper
    else if lower.digits % 2 = 0 then some lower else some upper
  else if lowerReads then some lower
  else if upperReads then some upper
  else none

/-- The shortest digits of a positive finite number; seventeen always suffice. -/
def shortestDigits (x : Binary64) : Digits :=
  let q := x.value
  let leading := leadingPlace q
  let found := (List.range 17).findSome? fun (extra : Nat) => onGrid? x q (leading - extra)
  found.getD ⟨0, 0⟩

/-- The digits without trailing zeros, and the place of the last one that is left. -/
def Digits.trim : Nat → Digits → Digits
  | 0, d => d
  | fuel + 1, d =>
    if d.digits % 10 = 0 ∧ d.digits ≠ 0 then trim fuel ⟨d.digits / 10, d.place + 1⟩ else d

/-- The layout of a number: plain for a leading place from -4 to 15, else with an exponent of at
least two digits; a plain whole number keeps one decimal. -/
def layout (digits : List Char) (leading : Int) : List Char :=
  if -4 ≤ leading ∧ leading < 0 then
    '0' :: '.' :: (List.replicate (-leading - 1).toNat '0' ++ digits)
  else if 0 ≤ leading ∧ leading < 16 then
    let whole := leading.toNat + 1
    if digits.length ≤ whole then
      digits ++ List.replicate (whole - digits.length) '0' ++ ['.', '0']
    else digits.take whole ++ '.' :: digits.drop whole
  else
    let size := Nat.toDigits 10 leading.natAbs
    let size := if size.length < 2 then '0' :: size else size
    let fraction := if digits.length ≤ 1 then [] else '.' :: digits.drop 1
    digits.take 1 ++ fraction ++ 'e' :: (if leading < 0 then '-' else '+') :: size

/-- The shortest text of a number. -/
def toText : Binary64 → String
  | .nan => "nan"
  | .infinite negative => if negative then "-inf" else "inf"
  | .finite negative significand exponent normal =>
    let sign := if negative then ['-'] else []
    if significand = 0 then String.ofList (sign ++ ['0', '.', '0'])
    else
      let shortest := (shortestDigits (.finite false significand exponent normal)).trim 20
      let digits := Nat.toDigits 10 shortest.digits
      String.ofList (sign ++ layout digits (shortest.place + digits.length - 1))

end RoleMining.Binary64
