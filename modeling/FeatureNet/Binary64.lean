namespace FeatureNet

/-- A 64-bit binary floating-point number, held as its bit pattern so that the payload of a
not-a-number survives every copy. -/
structure Binary64 where
  bits : UInt64
deriving DecidableEq, Hashable, Inhabited

namespace Binary64

def negative (x : Binary64) : Bool := 0x8000000000000000 ≤ x.bits.toNat

/-- The pattern without its sign. Among magnitudes up to the infinite one the order of the patterns
is the order of the values. -/
def magnitude (x : Binary64) : Nat := x.bits.toNat % 0x8000000000000000

def ofParts (negative : Bool) (magnitude : Nat) : Binary64 :=
  ⟨UInt64.ofNat (if negative then 0x8000000000000000 + magnitude else magnitude)⟩

def infiniteMagnitude : Nat := 0x7FF0000000000000

def zero : Binary64 := ofParts false 0

def negativeZero : Binary64 := ofParts true 0

def infinity : Binary64 := ofParts false infiniteMagnitude

def nan : Binary64 := ofParts false 0x7FF8000000000000

def isNaN (x : Binary64) : Bool := infiniteMagnitude < x.magnitude

def isInfinite (x : Binary64) : Bool := x.magnitude = infiniteMagnitude

def isFinite (x : Binary64) : Bool := x.magnitude < infiniteMagnitude

/-- The magnitude with its sign; both zeros give 0. -/
def signedMagnitude (x : Binary64) : Int := if x.negative then -x.magnitude else x.magnitude

instance : LT Binary64 :=
  ⟨fun x y => x.isNaN = false ∧ y.isNaN = false ∧ x.signedMagnitude < y.signedMagnitude⟩

instance : LE Binary64 :=
  ⟨fun x y => x.isNaN = false ∧ y.isNaN = false ∧ x.signedMagnitude ≤ y.signedMagnitude⟩

instance (x y : Binary64) : Decidable (x < y) :=
  inferInstanceAs (Decidable (x.isNaN = false ∧ y.isNaN = false ∧ _))

instance (x y : Binary64) : Decidable (x ≤ y) :=
  inferInstanceAs (Decidable (x.isNaN = false ∧ y.isNaN = false ∧ _))

/-- The place of a pattern in the total order: negative not-a-numbers, minus infinity, the negative
numbers, -0.0, 0.0, the positive numbers, infinity, positive not-a-numbers. -/
def rank (x : Binary64) : Int := if x.negative then -x.magnitude - 1 else x.magnitude

/-- The pattern that stands for a number in a fingerprint: both zeros share one. -/
def foldedBits (x : Binary64) : UInt64 := if x.magnitude = 0 then 0 else x.bits

theorem toNat_bits (x : Binary64) :
    x.bits.toNat = (if x.negative then 0x8000000000000000 else 0) + x.magnitude := by
  have := x.bits.toNat_lt
  unfold negative magnitude
  by_cases high : 0x8000000000000000 ≤ x.bits.toNat
  · simp only [high, decide_true, if_true]; omega
  · simp only [high, decide_false, Bool.false_eq_true, if_false]; omega

theorem magnitude_lt (x : Binary64) : x.magnitude < 0x8000000000000000 := Nat.mod_lt _ (by decide)

theorem toNat_bits_ofParts {sign : Bool} {m : Nat} (small : m < 0x8000000000000000) :
    (ofParts sign m).bits.toNat = (if sign then 0x8000000000000000 else 0) + m := by
  cases sign <;> simp [ofParts] <;> omega

@[simp] theorem negative_ofParts {sign : Bool} {m : Nat} (small : m < 0x8000000000000000) :
    (ofParts sign m).negative = sign := by
  cases sign
  · simpa [negative, toNat_bits_ofParts small] using small
  · simp [negative, toNat_bits_ofParts small]

@[simp] theorem magnitude_ofParts {sign : Bool} {m : Nat} (small : m < 0x8000000000000000) :
    (ofParts sign m).magnitude = m := by
  cases sign <;> simp [magnitude, toNat_bits_ofParts small] <;> omega

theorem ext_parts {x y : Binary64} (sign : x.negative = y.negative)
    (same : x.magnitude = y.magnitude) : x = y := by
  have bits : x.bits = y.bits := by
    rw [← UInt64.toNat_inj, toNat_bits x, toNat_bits y, sign, same]
  cases x; cases y; cases bits; rfl

/-- The total order has no two patterns at one place. -/
theorem rank_inj {x y : Binary64} : x.rank = y.rank ↔ x = y := by
  refine ⟨fun same => ?_, fun same => same ▸ rfl⟩
  unfold rank at same
  apply ext_parts
  · cases hx : x.negative <;> cases hy : y.negative <;> simp_all <;> omega
  · cases hx : x.negative <;> cases hy : y.negative <;> simp_all <;> omega

end Binary64

end FeatureNet
