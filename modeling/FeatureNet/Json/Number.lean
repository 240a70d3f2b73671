import FeatureNet.Binary64.Rounding
import FeatureNet.Json.Doc

namespace FeatureNet

namespace Json

inductive Number
  | int (n : Int)
  | float (x : Binary64)
deriving DecidableEq

namespace Number

open Binary64

def significandLimit : Nat := 0xFFFFFFFFFFFFFFFF

/-- Takes digits into a significand while it stays within the limit, and leaves the others. -/
def takeDigits : Nat → List Char → Nat × List Char
  | s, [] => (s, [])
  | s, c :: rest =>
    let next := 10 * s + (c.toNat - '0'.toNat)
    if next ≤ significandLimit then takeDigits next rest else (s, c :: rest)

def tenTo (n : Nat) : Nat := ofNatMagnitude (Nat.pow 10 n)

/-- The greatest power of ten that is used in one step of scaling. -/
def greatestPower : Nat := 308

/-- A magnitude over `10 ^ n`, by steps of the greatest power. -/
def scaleDown (m n : Nat) : Nat :=
  if n ≤ greatestPower then overMagnitude m (tenTo n)
  else if m = 0 then 0
  else scaleDown (overMagnitude m (tenTo greatestPower)) (n - greatestPower)
termination_by n
decreasing_by
  have : 0 < greatestPower := by decide
  omega

/-- A magnitude times `10 ^ n`, unless that is beyond the finite numbers. -/
def scaleUp? (m n : Nat) : Option Nat :=
  if n ≤ greatestPower then
    let scaled := timesMagnitude m (tenTo n)
    if scaled < infiniteMagnitude then some scaled else none
  else if m = 0 then some 0
  else none

/-- The magnitude of `significand * 10 ^ exponent`. -/
def scale? (significand : Nat) (exponent : Int) : Option Nat :=
  let m := ofNatMagnitude significand
  if exponent < 0 then some (scaleDown m exponent.natAbs) else scaleUp? m exponent.natAbs

/-- An exponent is kept in 32 bits. -/
def exponentLimit : Nat := 0x7FFFFFFF

/-- The magnitude of a significand with a written exponent, `shift` counting the digits left out before
the point less those taken in after it. An exponent that does not fit makes the number zero, or too
great if it is positive and the significand is not zero. -/
def magnitude? (significand : Nat) (shift : Int) : Option (Bool × List Char) → Option Nat
  | none => scale? significand shift
  | some (negative, digits) =>
    let exponent := Nat.ofDigitChars 10 digits 0
    if exponent ≤ exponentLimit then
      scale? significand (if negative then shift - exponent else shift + exponent)
    else if significand ≠ 0 ∧ ¬negative then none
    else some 0

end Number

open Number

/-- The value of a literal, if it is not too great. A whole literal that fits in 64 bits, signed
or unsigned, is an integer, except minus zero. Every other is read from as many leading digits
as 64 bits hold and scaled by one rounded power of ten, so that its last bits may differ from
those of the nearest number. -/
def Literal.number? (l : Literal) : Option Number :=
  let (significand, left) := takeDigits 0 l.whole
  match l.fraction, l.exponent with
  | none, none =>
    if left.isEmpty then
      if l.negative then
        if significand = 0 ∨ 0x8000000000000000 < significand then
          some (.float (Binary64.ofParts true (Binary64.ofNatMagnitude significand)))
        else some (.int (-significand))
      else some (.int significand)
    else (scale? significand left.length).map fun m => .float (Binary64.ofParts l.negative m)
  | fraction, exponent =>
    let digits := fraction.getD []
    let (significand, unused) := takeDigits significand digits
    let shift : Int := left.length - (digits.length - unused.length : Nat)
    (magnitude? significand shift exponent).map fun m => .float (Binary64.ofParts l.negative m)

end Json

end FeatureNet
