import RoleMining.Service.Expression

/-!
# Allowed origins

A service answers scripts of its allowed origins. An origin with certain marks in it is an
expression; `*` alone stands for every origin. Letter case never counts.
-/
namespace RoleMining.Origin

/-- The characters that make an allowed origin an expression. -/
def expressionMarks : String := "*\\]?$^[()"

def isExpression (allowed : String) : Bool := allowed.toList.any fun c => expressionMarks.contains c

/-- Every origin. -/
def everything : String := ".*"

def normal (allowed : String) : String := if allowed == "*" then everything else allowed

def admits (allowed origin : String) : Bool :=
  if isExpression allowed then
    (Expression.parse? allowed).any fun e => e.beginsWith origin
  else Text.lowerLatin allowed == Text.lowerLatin origin

/-- The origin that an answer names: the asking one when it is allowed; for a request that names
none, every origin or the first of the plain ones in order. -/
def answered (allowed : List String) (origin : Option String) : Option String :=
  let allowed := allowed.map normal
  match origin.filter fun text => !text.isEmpty with
  | some origin => if allowed.any fun a => admits a origin then some origin else none
  | none =>
    if allowed.contains everything then some "*"
    else ((allowed.filter fun a => !isExpression a).mergeSort fun a b => decide (a ≤ b)).head?

end RoleMining.Origin
