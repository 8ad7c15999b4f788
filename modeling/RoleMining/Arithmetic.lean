import RoleMining.Binary64.Basic

/-!
# Arithmetic of averages

Averages and densities are computed in double precision, where the order of additions matters:
numbers are added from left to right or in pairs of sums. The same definitions over exact rationals
say what the figures approximate.
-/
namespace RoleMining

/-- A number system with quotients of integers and rounding to decimal places. -/
class Arithmetic (α : Type) extends Add α, Sub α, Mul α, Div α where
  ofInt : Int → α
  ratio : Int → Int → α
  roundPlaces : Nat → α → α

instance : Arithmetic Binary64 where
  ofInt := Binary64.ofInt
  ratio n d := Binary64.ofRat ((n : Rat) / d)
  roundPlaces := Binary64.roundPlaces

instance : Arithmetic Rat where
  ofInt n := n
  ratio n d := (n : Rat) / d
  roundPlaces places q := (roundEven (q * (tenPower places : Nat)) : Rat) / (tenPower places : Nat)

namespace Arithmetic

/-- Eight sums that are added up side by side. -/
structure Lanes (α : Type) where
  a : α
  b : α
  c : α
  d : α
  e : α
  f : α
  g : α
  h : α

namespace Lanes

variable {α : Type} [Add α]

def add (x y : Lanes α) : Lanes α :=
  ⟨x.a + y.a, x.b + y.b, x.c + y.c, x.d + y.d, x.e + y.e, x.f + y.f, x.g + y.g, x.h + y.h⟩

def joined (x : Lanes α) : α := ((x.a + x.b) + (x.c + x.d)) + ((x.e + x.f) + (x.g + x.h))

/-- Every eighth number goes to the same sum; fewer than eight are added to the sums once they are
joined. -/
def sumOnto (sums : Lanes α) : List α → α
  | a :: b :: c :: d :: e :: f :: g :: h :: rest =>
    sumOnto (sums.add ⟨a, b, c, d, e, f, g, h⟩) rest
  | rest => rest.foldl (· + ·) sums.joined

end Lanes

variable {α : Type} [Arithmetic α]

/-- The sum from left to right. -/
def sum (xs : List α) : α := xs.foldl (· + ·) (ofInt 0)

def mean (xs : List α) : α := sum xs / ofInt xs.length

/-- The sum of a block of numbers, in eight lanes unless there are fewer. -/
def blockSum : List α → α
  | a :: b :: c :: d :: e :: f :: g :: h :: rest => Lanes.sumOnto ⟨a, b, c, d, e, f, g, h⟩ rest
  | few => sum few

def blockSize : Nat := 128

/-- The sum that loses less to rounding: what is longer than a block is halved, the first half a
multiple of eight, and the sums of the halves are added. -/
def pairwiseSum (xs : List α) : α :=
  if xs.length ≤ blockSize then blockSum xs
  else
    let half := xs.length / 2 / 8 * 8
    pairwiseSum (xs.take half) + pairwiseSum (xs.drop half)
termination_by xs.length
decreasing_by
  all_goals
    simp only [List.length_take, List.length_drop]
    unfold blockSize at *
    omega

def pairwiseMean (xs : List α) : α := pairwiseSum xs / ofInt xs.length

end Arithmetic
end RoleMining
