import RoleMining.Text.Blank

/-!
# Integer numerals

An integer may stand between blanks, carries an optional sign, and is written in the decimal digits
of any script, with single low lines between digits.
-/
namespace RoleMining.Text

/-- The digit zero of every script with decimal digits; the other nine follow it. -/
def digitZeros : List Nat :=
  [0x30, 0x660, 0x6f0, 0x7c0, 0x966, 0x9e6, 0xa66, 0xae6, 0xb66, 0xbe6, 0xc66, 0xce6, 0xd66,
   0xde6, 0xe50, 0xed0, 0xf20, 0x1040, 0x1090, 0x17e0, 0x1810, 0x1946, 0x19d0, 0x1a80, 0x1a90,
   0x1b50, 0x1bb0, 0x1c40, 0x1c50, 0xa620, 0xa8d0, 0xa900, 0xa9d0, 0xa9f0, 0xaa50, 0xabf0, 0xff10,
   0x104a0, 0x10d30, 0x11066, 0x110f0, 0x11136, 0x111d0, 0x112f0, 0x11450, 0x114d0, 0x11650,
   0x116c0, 0x11730, 0x118e0, 0x11950, 0x11c50, 0x11d50, 0x11da0, 0x16a60, 0x16ac0, 0x16b50,
   0x1d7ce, 0x1d7d8, 0x1d7e2, 0x1d7ec, 0x1d7f6, 0x1e140, 0x1e2f0, 0x1e950, 0x1fbf0]

/-- The value of a decimal digit of any script. -/
def digitValue? (c : Char) : Option Nat :=
  (digitZeros.find? fun start => start ≤ c.toNat && c.toNat ≤ start + 9).map (c.toNat - ·)

/-- Blanks that may surround a numeral; the information separators may not. -/
def surroundsNumeral (c : Char) : Bool :=
  isBlank c && !(0x1c ≤ c.toNat && c.toNat ≤ 0x1f)

/-- The most digits a numeral may have. -/
def maxNumeralDigits : Nat := 4300

/-- The digits of a numeral; a low line only between two digits. -/
def numeralDigits? : List Char → Option (List Nat)
  | [] => none
  | [c] => (digitValue? c).map ([·])
  | c :: '_' :: rest => do return (← digitValue? c) :: (← numeralDigits? rest)
  | c :: rest => do return (← digitValue? c) :: (← numeralDigits? rest)

def ofDigits (digits : List Nat) : Nat :=
  digits.foldl (fun value digit => 10 * value + digit) 0

def natural? (cs : List Char) : Option Nat := do
  let digits ← numeralDigits? cs
  if digits.length ≤ maxNumeralDigits then some (ofDigits digits) else none

/-- The integer that a text spells. -/
def integer? (s : String) : Option Int :=
  match trimList surroundsNumeral s.toList with
  | '-' :: rest => (natural? rest).map fun n => -(n : Int)
  | '+' :: rest => (natural? rest).map fun n => (n : Int)
  | rest => (natural? rest).map fun n => (n : Int)

/-- An integer in decimal digits, with a sign when it is negative. -/
def decimal (n : Int) : List Char :=
  if n < 0 then '-' :: Nat.toDigits 10 n.natAbs else Nat.toDigits 10 n.natAbs

def ofInt (n : Int) : String := String.ofList (decimal n)

end RoleMining.Text
