namespace FeatureNet

namespace Decimal

def naturalText (n : Nat) : List Char := Nat.toDigits 10 n

def integerText (n : Int) : List Char :=
  if n < 0 then '-' :: naturalText n.natAbs else naturalText n.natAbs

end Decimal

end FeatureNet
