import FeatureNet.Binary64.Rounding

namespace FeatureNet

/-- The number `digits * 10 ^ exponent`. -/
structure Decimal where
  digits : Nat
  exponent : Int
deriving DecidableEq, Inhabited

/-- Which of two decimals stands for a number exactly half way between them. -/
inductive Tie
  | toEven
  | up
deriving DecidableEq

namespace Decimal

open Binary64

/-- The length of a step of the grid of multiples of `10 ^ exponent`, in half units, as a quotient. -/
def gridStep (exponent : Int) : Nat × Nat :=
  if 0 ≤ exponent then (Nat.pow 10 exponent.toNat * (2 * unitsInOne), 1)
  else (2 * unitsInOne, Nat.pow 10 (-exponent).toNat)

/-- Whether `num / den` half units round to the magnitude `m`: they lie between the middles of `m` and its
two neighbours, and a middle itself rounds to the even neighbour. -/
def roundsTo (m num den : Nat) : Bool :=
  let low := (unitsOf (m - 1) + unitsOf m) * den
  let high := (unitsOf m + unitsOf (m + 1)) * den
  (low < num && num < high) || (m % 2 = 0 && (num = low || num = high))

/-- The point of a grid nearest the magnitude `m`, if one reads back as `m`. -/
def onGrid (tie : Tie) (m : Nat) (exponent : Int) : Option Decimal :=
  let (num, den) := gridStep exponent
  let value := 2 * unitsOf m * den
  let below := value / num
  let down := value - below * num
  let up := (below + 1) * num - value
  let upper := up < down || (up = down && (tie = .up || below % 2 = 1))
  match roundsTo m (below * num) den, roundsTo m ((below + 1) * num) den with
  | false, false => none
  | true, false => some ⟨below, exponent⟩
  | false, true => some ⟨below + 1, exponent⟩
  | true, true => some ⟨if upper then below + 1 else below, exponent⟩

/-- An exponent above those of all grids with a point near `m`; the quotient is a little more than the
decimal logarithm of 2. -/
def topExponent (m : Nat) : Int := (((unitsOf m).log2 : Int) - 1073) * 30103 / 100000 + 1

/-- The shortest decimal of a finite magnitude: on the coarsest grid with a point that reads back, the
point nearest the magnitude. Seventeen digits always read back, so that the twenty grids from the coarsest
on contain one that fits. -/
def shortest (tie : Tie) (m : Nat) : Decimal :=
  if m = 0 then ⟨0, 0⟩
  else ((List.range 20).findSome? fun (i : Nat) => onGrid tie m (topExponent m - i)).getD ⟨0, 0⟩

end Decimal

end FeatureNet
