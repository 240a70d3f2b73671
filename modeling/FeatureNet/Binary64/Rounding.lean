import FeatureNet.Binary64

namespace FeatureNet

namespace Binary64

/-- The leading bit of a number, next above its fraction. It is left unwritten, and its place is that of
the exponent. -/
def leadingBit : Nat := 0x10000000000000

/-- How many least positive numbers a finite magnitude is worth. Counted in these units every finite
number is whole, and every exact result a quotient of two naturals. -/
def unitsOf (m : Nat) : Nat :=
  if m / leadingBit = 0 then m else (leadingBit + m % leadingBit) <<< (m / leadingBit - 1)

def units (x : Binary64) : Nat := unitsOf x.magnitude

/-- How many units make up 1. -/
def unitsInOne : Nat := 1 <<< 1074

/-- A quotient rounded to a whole number, a half going to the even neighbour. -/
def roundHalfEven (num den : Nat) : Nat :=
  let quotient := num / den
  let rest := 2 * (num % den)
  if rest < den then quotient
  else if den < rest then quotient + 1
  else quotient + quotient % 2

/-- The magnitude nearest to `num / den` units. A quotient of more than 53 bits is cut to its leading
53, each bit cut off being one step of the exponent; a carry out of the fraction moves into the
exponent by itself. What lies above the finite magnitudes is infinite. -/
def nearest (num den : Nat) : Nat :=
  let cut := (num / den).log2 - 52
  min infiniteMagnitude (cut * leadingBit + roundHalfEven num (den <<< cut))

def signedUnits (x : Binary64) : Int := if x.negative then -x.units else x.units

/-- The rounded sum. An exact zero is positive unless both summands are negative. -/
def add (x y : Binary64) : Binary64 :=
  if x.isNaN || y.isNaN then nan
  else if x.isInfinite then
    if y.isInfinite && x.negative != y.negative then nan else x
  else if y.isInfinite then y
  else
    let total := x.signedUnits + y.signedUnits
    if total = 0 then ofParts (x.negative && y.negative) 0
    else ofParts (total < 0) (nearest total.natAbs 1)

instance : Add Binary64 := ⟨add⟩

/-- The sum of a list from the left. The empty sum is -0.0, which leaves every summand as it is. -/
def sum (l : List Binary64) : Binary64 := l.foldl (· + ·) negativeZero

/-- The magnitude of the rounded product of two finite magnitudes. -/
def timesMagnitude (a b : Nat) : Nat := nearest (unitsOf a * unitsOf b) unitsInOne

/-- The magnitude of the rounded quotient of two finite magnitudes, the second not zero. -/
def overMagnitude (a b : Nat) : Nat := nearest (unitsOf a * unitsInOne) (unitsOf b)

def ofNatMagnitude (n : Nat) : Nat := nearest (n * unitsInOne) 1

def ofInt (n : Int) : Binary64 := ofParts (n < 0) (ofNatMagnitude n.natAbs)

end Binary64

end FeatureNet
