import FeatureNet.Network
import FeatureNet.Proofs.NearestNumber

namespace FeatureNet

namespace Network

open Binary64

variable {x y z : Binary64}

theorem lt_zero_iff : x < Binary64.zero ↔ x.isNaN = false ∧ x.signedMagnitude < 0 := by
  have zero : Binary64.zero.isNaN = false ∧ Binary64.zero.signedMagnitude = 0 := by decide
  show x.isNaN = false ∧ _ ∧ x.signedMagnitude < Binary64.zero.signedMagnitude ↔ _
  rw [zero.2]
  exact ⟨fun ⟨number, _, less⟩ => ⟨number, less⟩, fun ⟨number, less⟩ => ⟨number, zero.1, less⟩⟩

theorem not_signedMagnitude_lt_zero :
    ¬x.signedMagnitude < 0 ↔ (x.negative = true → x.magnitude = 0) := by
  unfold signedMagnitude
  split
  · next negative =>
    constructor
    · intro above _
      omega
    · intro zero
      have none := zero negative
      omega
  · next positive => exact ⟨fun _ negative => absurd negative positive, fun _ => by omega⟩

theorem isCost_iff :
    isCost x ↔ x.magnitude ≤ infiniteMagnitude ∧ (x.negative = true → x.magnitude = 0) := by
  have number : x.isNaN = false ↔ x.magnitude ≤ infiniteMagnitude := by
    rw [isNaN, decide_eq_false_iff_not, Nat.not_lt]
  rw [isCost, Bool.not_eq_true', Bool.or_eq_false_iff, decide_eq_false_iff_not, lt_zero_iff, number,
    not_and, not_signedMagnitude_lt_zero]
  exact ⟨fun ⟨bound, zero⟩ => ⟨bound, zero bound⟩, fun ⟨bound, zero⟩ => ⟨bound, fun _ => zero⟩⟩

theorem isCost_zero : isCost Binary64.zero := by decide

theorem isCost_negativeZero : isCost negativeZero := by decide

theorem isCost_infinity : isCost infinity := by decide

theorem magnitude_infinity : infinity.magnitude = infiniteMagnitude := by decide

theorem isNaN_of_isCost (cost : isCost x) : x.isNaN = false := by
  simpa [isNaN] using (isCost_iff.mp cost).1

theorem signedMagnitude_of_isCost (cost : isCost x) : x.signedMagnitude = x.magnitude := by
  unfold signedMagnitude
  split
  · next negative => simp [(isCost_iff.mp cost).2 negative]
  · rfl

theorem le_iff_magnitude (costX : isCost x) (costY : isCost y) :
    x ≤ y ↔ x.magnitude ≤ y.magnitude := by
  change x.isNaN = false ∧ y.isNaN = false ∧ x.signedMagnitude ≤ y.signedMagnitude ↔ _
  simp [isNaN_of_isCost costX, isNaN_of_isCost costY, signedMagnitude_of_isCost costX,
    signedMagnitude_of_isCost costY]

theorem lt_iff_magnitude (costX : isCost x) (costY : isCost y) :
    x < y ↔ x.magnitude < y.magnitude := by
  change x.isNaN = false ∧ y.isNaN = false ∧ x.signedMagnitude < y.signedMagnitude ↔ _
  simp [isNaN_of_isCost costX, isNaN_of_isCost costY, signedMagnitude_of_isCost costX,
    signedMagnitude_of_isCost costY]

/-- The total order on costs refines the numeric one: only the zeros are told apart. -/
theorem magnitude_le_of_rank_le (costX : isCost x) (costY : isCost y) (le : x.rank ≤ y.rank) :
    x.magnitude ≤ y.magnitude := by
  have signX := (isCost_iff.mp costX).2
  have signY := (isCost_iff.mp costY).2
  unfold rank at le
  by_cases negativeX : x.negative = true
  · have zeroX := signX negativeX
    omega
  · by_cases negativeY : y.negative = true
    · have zeroY := signY negativeY
      rw [if_neg negativeX, if_pos negativeY] at le
      omega
    · rw [if_neg negativeX, if_neg negativeY] at le
      omega

theorem isFinite_iff : x.isFinite ↔ x.magnitude < infiniteMagnitude := by simp [isFinite]

/-- An infinite magnitude is worth so many units that it absorbs every summand. -/
theorem nearest_infinite (n : Nat) : nearest (unitsOf infiniteMagnitude + n) 1 = infiniteMagnitude := by
  have least := nearest_mono (Nat.le_add_right (unitsOf infiniteMagnitude) n)
  rw [nearest_unitsOf (Nat.le_refl _)] at least
  exact Nat.le_antisymm (nearest_le _) least

theorem signedUnits_of_isCost (cost : isCost x) : x.signedUnits = x.units := by
  unfold signedUnits
  split
  · next negative => simp [units, (isCost_iff.mp cost).2 negative, unitsOf]
  · rfl

theorem units_eq_zero_iff : x.units = 0 ↔ x.magnitude = 0 := by
  constructor
  · exact fun none => Nat.eq_zero_of_not_pos fun positive => (unitsOf_pos positive).ne' none
  · intro none
    simp [units, none, unitsOf]

theorem negative_of_isInfinite (cost : isCost x) (infinite : x.isInfinite = true) :
    x.negative = false := by
  have zero := (isCost_iff.mp cost).2
  rw [isInfinite, decide_eq_true_eq] at infinite
  cases sign : x.negative
  · rfl
  · exact absurd (zero sign) (by rw [infinite]; decide)

theorem add_eq (costX : isCost x) (costY : isCost y) :
    x + y = if x.isInfinite then x else if y.isInfinite then y
      else ofParts (x.negative && y.negative) (nearest (x.units + y.units) 1) := by
  change Binary64.add x y = _
  unfold Binary64.add
  rw [isNaN_of_isCost costX, isNaN_of_isCost costY, signedUnits_of_isCost costX,
    signedUnits_of_isCost costY]
  dsimp only
  split
  · next number => cases number
  split
  · next infiniteX =>
    have clash : ¬(y.isInfinite && x.negative != y.negative) = true := by
      intro both
      rw [Bool.and_eq_true] at both
      rw [negative_of_isInfinite costX infiniteX, negative_of_isInfinite costY both.1] at both
      cases both.2
    rw [if_neg clash]
  split
  · rfl
  split
  · next none =>
    have sum : x.units + y.units = 0 := by omega
    rw [sum]
    rfl
  · next some =>
    have natAbs : ((x.units : Int) + y.units).natAbs = x.units + y.units := by omega
    have above : ¬(x.units : Int) + y.units < 0 := by omega
    have signs : (x.negative && y.negative) = false := by
      cases signX : x.negative
      · rfl
      · cases signY : y.negative
        · rfl
        · have zeroX := units_eq_zero_iff.mpr ((isCost_iff.mp costX).2 signX)
          have zeroY := units_eq_zero_iff.mpr ((isCost_iff.mp costY).2 signY)
          omega
    rw [natAbs, signs, decide_eq_false above]

/-- The sum of two costs is the number nearest to their exact sum, infinite summands included, and is
negative zero only if both are. -/
theorem add_parts (costX : isCost x) (costY : isCost y) :
    (x + y).magnitude = nearest (x.units + y.units) 1 ∧
      (x + y).negative = (x.negative && y.negative) := by
  rw [add_eq costX costY]
  split
  · next infinite =>
    have magnitude : x.magnitude = infiniteMagnitude := by simpa [isInfinite] using infinite
    constructor
    · rw [units, magnitude, nearest_infinite]
    · rw [negative_of_isInfinite costX infinite, Bool.false_and]
  split
  · next infinite =>
    have magnitude : y.magnitude = infiniteMagnitude := by simpa [isInfinite] using infinite
    constructor
    · rw [Nat.add_comm, units, magnitude, nearest_infinite]
    · rw [negative_of_isInfinite costY infinite, Bool.and_false]
  · have small : nearest (x.units + y.units) 1 < 0x8000000000000000 :=
      Nat.lt_of_le_of_lt (nearest_le _) (by decide)
    exact ⟨magnitude_ofParts small, negative_ofParts small⟩

theorem isCost_add (costX : isCost x) (costY : isCost y) : isCost (x + y) := by
  obtain ⟨magnitude, negative⟩ := add_parts costX costY
  refine isCost_iff.mpr ⟨?_, fun sign => ?_⟩
  · rw [magnitude, nearest_one]
    omega
  · rw [negative, Bool.and_eq_true] at sign
    have zeroX := units_eq_zero_iff.mpr ((isCost_iff.mp costX).2 sign.1)
    have zeroY := units_eq_zero_iff.mpr ((isCost_iff.mp costY).2 sign.2)
    rw [magnitude, zeroX, zeroY]
    decide

theorem units_mono (costY : isCost y) (le : x.magnitude ≤ y.magnitude) : x.units ≤ y.units :=
  unitsOf_mono le (isCost_iff.mp costY).1

theorem magnitude_le_of_units_le (costX : isCost x) (costY : isCost y) (le : x.units ≤ y.units) :
    x.magnitude ≤ y.magnitude := by
  have back := nearest_mono le
  rwa [units, units, nearest_unitsOf (isCost_iff.mp costX).1,
    nearest_unitsOf (isCost_iff.mp costY).1] at back

/-- Adding a cost keeps the order. -/
theorem magnitude_add_mono (costX : isCost x) (costY : isCost y) (costZ : isCost z)
    (le : x.magnitude ≤ y.magnitude) : (x + z).magnitude ≤ (y + z).magnitude := by
  rw [(add_parts costX costZ).1, (add_parts costY costZ).1]
  exact nearest_mono (Nat.add_le_add_right (units_mono costY le) _)

/-- Adding a cost never lessens a sum. -/
theorem magnitude_le_add (costX : isCost x) (costY : isCost y) :
    x.magnitude ≤ (x + y).magnitude := by
  rw [(add_parts costX costY).1]
  calc x.magnitude = nearest x.units 1 := (nearest_unitsOf (isCost_iff.mp costX).1).symm
    _ ≤ nearest (x.units + y.units) 1 := nearest_mono (Nat.le_add_right _ _)

theorem magnitude_le_add_left (costX : isCost x) (costY : isCost y) :
    y.magnitude ≤ (x + y).magnitude := by
  rw [(add_parts costX costY).1]
  calc y.magnitude = nearest y.units 1 := (nearest_unitsOf (isCost_iff.mp costY).1).symm
    _ ≤ nearest (x.units + y.units) 1 := nearest_mono (Nat.le_add_left _ _)

end Network

end FeatureNet
