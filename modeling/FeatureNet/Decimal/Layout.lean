import FeatureNet.Decimal.Shortest
import FeatureNet.Decimal.Whole

namespace FeatureNet

namespace Decimal

/-- When a number is written positionally and when with an exponent, and whether a whole number keeps a
fraction. -/
structure Layout where
  tie : Tie
  /-- Whether a number is written without an exponent, by the place of its first digit. -/
  positional : Int → Bool
  /-- Whether a whole number written without an exponent ends in ".0". -/
  fraction : Bool

def zeros (n : Nat) : List Char := List.replicate n '0'

/-- Digits around a point that stands `places` before their end. -/
def pointText (digits : List Char) (places : Nat) : List Char :=
  if places < digits.length then
    digits.take (digits.length - places) ++ '.' :: digits.drop (digits.length - places)
  else '0' :: '.' :: zeros (places - digits.length) ++ digits

def exponentText (digits : List Char) (place : Int) : List Char :=
  let tail := digits.drop 1
  digits.take 1 ++ (if tail.isEmpty then [] else '.' :: tail) ++
    'e' :: (if place < 0 then '-' else '+') :: naturalText place.natAbs

def Layout.write (layout : Layout) (d : Decimal) : List Char :=
  let digits := naturalText d.digits
  let place := d.exponent + digits.length - 1
  if layout.positional place then
    if 0 ≤ d.exponent then
      digits ++ zeros d.exponent.toNat ++ if layout.fraction then ['.', '0'] else []
    else pointText digits (-d.exponent).toNat
  else exponentText digits place

/-- The text of a finite number; a zero keeps its sign. -/
def Layout.text (layout : Layout) (x : Binary64) : List Char :=
  let unsigned := layout.write (shortest layout.tie x.magnitude)
  if x.negative then '-' :: unsigned else unsigned

end Decimal

end FeatureNet
